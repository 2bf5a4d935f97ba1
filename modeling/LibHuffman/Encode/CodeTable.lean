/-
# Soundness of the code table

`__huf_create_char_coding` collects the characters of a code on the way up from a leaf,
and the bit writer takes them from the last to the first. Read that way, the entries of
the table are the paths from the root to the leaves: no entry begins with another one,
and none is longer than the block has distinct bytes.
-/

import LibHuffman.Allocation.Encoder
import LibHuffman.Encode.Coding
import LibHuffman.Foundation.Leaves
import LibHuffman.Trees.Shape

namespace LibHuffman

open Foundation Allocating EncodeRun EncodeCore

variable {ρ ω : Type}

/-! ## Entries -/

/-- A mapping has an entry for a byte. -/
def HufSymbolMapping.Codes (self : HufSymbolMapping) (byte : UInt8)
    (element : HufSymbolMappingElement) : Prop :=
  self.symbols[byte.toNat]? = some (some element)

/-- The characters of an entry from the last to the first. -/
def HufSymbolMappingElement.read (self : HufSymbolMappingElement) : List UInt8 :=
  (self.coding.take self.length).reverse

/-- Characters lead from a pointer to a node, `'0'` to the left and `'1'` to the right. -/
inductive Leads (nodes : ℕ → Option HufNode) : Option ℕ → List UInt8 → ℕ → Prop
  | here (p : ℕ) : Leads nodes (some p) [] p
  | left {p q : ℕ} {node : HufNode} {chars : List UInt8} (hnode : nodes p = some node)
      (h : Leads nodes node.left chars q) : Leads nodes (some p) ('0'.toUInt8 :: chars) q
  | right {p q : ℕ} {node : HufNode} {chars : List UInt8} (hnode : nodes p = some node)
      (h : Leads nodes node.right chars q) : Leads nodes (some p) ('1'.toUInt8 :: chars) q

/-- A table of codes for the bytes of a block. -/
structure SoundTable (block : List UInt8) (heap : Heap) (tree : HufTree)
    (mapping : HufSymbolMapping) : Prop where
  length_symbols : mapping.symbols.length = hufAsciiCount
  coded : ∀ byte, (∃ element, mapping.Codes byte element) ↔ byte ∈ block
  /-- An entry leads from the root to the leaf of its byte. -/
  leads : ∀ byte element, mapping.Codes byte element → ∃ leaf node,
    tree.leaves[byte.toNat]? = some (some leaf) ∧
    Leads heap.nodes tree.root element.read leaf ∧
    heap.nodes leaf = some node ∧ node.IsLeaf ∧ node.index = Int16.ofNat byte.toNat
  prefixFree : ∀ byte byte' element element', mapping.Codes byte element →
    mapping.Codes byte' element' → element.read <+: element'.read → byte = byte'
  length : ∀ byte element, mapping.Codes byte element →
    element.read.length = element.length ∧ 1 ≤ element.length ∧
    element.length ≤ block.toFinset.card
  /-- No buffer with room for that many characters cuts the way to the root off. -/
  whole : ∀ byte element leaf, mapping.Codes byte element →
    tree.leaves[byte.toNat]? = some (some leaf) → ∀ room, block.toFinset.card ≤ room →
    hufNodeToString heap room (some leaf) = .ok element.read.reverse

section

variable {nodes : ℕ → Option HufNode} {heap : Heap} {pointer : Option ℕ} {p : ℕ}
  {node : HufNode} {chars : List UInt8}

theorem Leads.reached (h : Leads nodes pointer chars p) (hnode : nodes p = some node) :
    Reached nodes pointer p node := by
  induction h with
  | here => exact .here hnode
  | left hnode' _ ih => exact .left hnode' (ih hnode)
  | right hnode' _ ih => exact .right hnode' (ih hnode)

/-- The characters of a path lead to its leaf. -/
theorem TreeAt.leads {tree : BinaryTree Int16} {cells : List ℕ} {bits : List Bool} {a : Int16}
    (h : TreeAt heap pointer tree cells) (hpath : Path tree bits a) :
    ∃ leaf node, Leads heap.nodes pointer (bits.map bitChar) leaf ∧
      heap.nodes leaf = some node ∧ node.IsLeaf ∧ node.index = a := by
  induction hpath generalizing pointer cells with
  | leaf =>
      cases h with
      | node hnode hleft hright =>
          exact ⟨_, _, .here _, hnode, ⟨hleft.pointer_eq_none_iff.mpr rfl,
            hright.pointer_eq_none_iff.mpr rfl⟩, rfl⟩
  | left _ ih =>
      cases h with
      | node hnode hleft _ =>
          rcases ih hleft with ⟨leaf, node, hleads, hleaf⟩
          exact ⟨leaf, node, .left hnode hleads, hleaf⟩
  | right _ ih =>
      cases h with
      | node hnode _ hright =>
          rcases ih hright with ⟨leaf, node, hleads, hleaf⟩
          exact ⟨leaf, node, .right hnode hleads, hleaf⟩

/-- Where a buffer is not full at the end, the way up has come to the root, and any other
buffer with room for the characters holds the same. -/
theorem hufNodeToString_of_length_lt {room room' : ℕ}
    (h : hufNodeToString heap room pointer = .ok chars) (hlt : chars.length < room)
    (hroom : chars.length ≤ room') : hufNodeToString heap room' pointer = .ok chars := by
  induction room generalizing room' pointer chars with
  | zero => exact absurd hlt (Nat.not_lt_zero _)
  | succ room ih =>
      cases pointer with
      | none =>
          cases h
          cases room' <;> rfl
      | some p =>
          have hread : ∃ node, heap.nodes p = some node := by
            cases hnode : heap.nodes p with
            | some node => exact ⟨node, rfl⟩
            | none =>
                rw [hufNodeToString, Heap.read, hnode] at h
                cases h
          rcases hread with ⟨node, hnode⟩
          cases hparent : node.parent with
          | none =>
              rw [hufNodeToString_root _ hnode hparent] at h ⊢
              exact h
          | some q =>
              cases hq : heap.nodes q with
              | none =>
                  rcases node with ⟨index, parent, left, right⟩
                  cases hparent
                  rw [hufNodeToString, Heap.read_of_some hnode] at h
                  have hbroken : heap.read q = .error .releasedPointer := by rw [Heap.read, hq]
                  simp [hbroken, bind, Except.bind] at h
              | some parent =>
                  rw [hufNodeToString_step _ hnode hparent hq] at h
                  cases hup : hufNodeToString heap room (some q) with
                  | error fault =>
                      rw [hup] at h
                      cases h
                  | ok later =>
                      rw [hup] at h
                      cases h
                      rw [List.length_cons] at hlt hroom
                      obtain ⟨more, rfl⟩ := Nat.exists_eq_add_one_of_ne_zero
                        (Nat.ne_of_gt (Nat.lt_of_lt_of_le (Nat.succ_pos _) hroom))
                      rw [hufNodeToString_step _ hnode hparent hq,
                        ih hup (Nat.lt_of_succ_lt_succ hlt) (Nat.le_of_succ_le_succ hroom)]
                      rfl

end

/-! ## Codes of a histogram -/

section

variable {rates : List ℕ} {byte byte' : ℕ}

/-- No code is longer than the number of bytes that were counted. -/
theorem Forest.Countable.length_hufCode_le (h : Forest.Countable rates)
    (hbyte : byte ∈ Forest.counted rates) :
    (hufCode rates byte).length ≤ (Forest.counted rates).card := by
  have hle := (h.path_hufCode hbyte).length_le_joints
  have hnodes := numNodes_eq_leaves_add_joints (hufTree rates)
  rw [h.numNodes_eq] at hnodes
  -- every byte has a leaf
  have hleaves : (Forest.counted rates).card ≤ (leaves (hufTree rates)).length := by
    apply Nat.le_trans (Finset.card_le_card _) (List.toFinset_card_le _)
    intro k hk
    exact List.mem_toFinset.mpr (mem_leaves_iff.mpr ⟨_, h.path_hufCode hk⟩)
  omega

/-- No code begins with the code of another byte. -/
theorem Forest.Countable.eq_of_prefixed (h : Forest.Countable rates)
    (hbyte : byte ∈ Forest.counted rates) (hbyte' : byte' ∈ Forest.counted rates)
    (hpre : hufCode rates byte <+: hufCode rates byte') : byte = byte' :=
  ((h.path_hufCode hbyte).eq_of_prefixed (h.path_hufCode hbyte') hpre).2

theorem read_codeElement (rates : List ℕ) (byte : ℕ) :
    (codeElement rates byte).read = (hufCode rates byte).map bitChar := by
  rw [HufSymbolMappingElement.read, codeElement, List.take_append_of_le_length (by simp),
    List.take_of_length_le (by simp), ← List.map_reverse, List.reverse_reverse]

theorem bitChar_injective : Function.Injective bitChar := by decide

end

section

variable {block : List UInt8} {m : HufSymbolMapping} {byte : UInt8}
  {element : HufSymbolMappingElement}

/-- The entries of a filled table. -/
theorem CodedBelow.codes_iff (h : CodedBelow (byteRates block) hufAsciiCount m) :
    m.Codes byte element ↔ byte ∈ block ∧ element = codeElement (byteRates block) byte.toNat := by
  rw [HufSymbolMapping.Codes, h.coded _ byte.toNat_lt]
  by_cases hbyte : byte ∈ block
  · rw [if_pos (mem_counted_byteRates.mpr hbyte)]
    simp [hbyte, eq_comm]
  · rw [if_neg fun hmem => hbyte (mem_counted_byteRates.mp hmem)]
    simp [hbyte]

/-- The table of a well-formed tree is sound. -/
theorem CodedBelow.soundTable {t : HistogramTree}
    (h : CodedBelow (byteRates block) hufAsciiCount m) (hbuilt : Built (byteRates block) t)
    (hwell : WellFormed (Forest.counted (byteRates block)) t.heap t.tree)
    (hrates : Forest.Countable (byteRates block)) : SoundTable block t.heap t.tree m := by
  constructor
  case length_symbols => exact h.length_symbols
  case coded =>
    intro byte
    simp [h.codes_iff]
  case leads =>
    intro byte element hcodes
    rcases h.codes_iff.mp hcodes with ⟨hbyte, rfl⟩
    have hmem := mem_counted_byteRates.mpr hbyte
    obtain ⟨cells, hat, -, -⟩ := hbuilt.holds
    obtain ⟨leaf, node, hleads, hnode, hleaf, hindex⟩ :=
      hat.leads ((hrates.path_hufCode hmem).map Int16.ofNat)
    obtain ⟨p, hp, honly⟩ := hwell.entered _ hmem
    obtain rfl : leaf = p := (honly leaf).mp ⟨node, hleads.reached hnode, hleaf, hindex⟩
    rw [read_codeElement]
    exact ⟨leaf, node, hp, hleads, hnode, hleaf, hindex⟩
  case prefixFree =>
    intro byte byte' element element' hcodes hcodes' hpre
    rcases h.codes_iff.mp hcodes with ⟨hbyte, rfl⟩
    rcases h.codes_iff.mp hcodes' with ⟨hbyte', rfl⟩
    rw [read_codeElement, read_codeElement] at hpre
    apply UInt8.toNat_inj.mp
    apply hrates.eq_of_prefixed (mem_counted_byteRates.mpr hbyte) (mem_counted_byteRates.mpr hbyte')
    exact (List.prefix_map_iff_of_injective bitChar_injective).mp hpre
  case length =>
    intro byte element hcodes
    rcases h.codes_iff.mp hcodes with ⟨hbyte, rfl⟩
    have hmem := mem_counted_byteRates.mpr hbyte
    have hle := hrates.length_hufCode_le hmem
    rw [card_counted_byteRates] at hle
    rw [read_codeElement, List.length_map]
    exact ⟨rfl, List.length_pos_iff.mpr (hrates.hufCode_ne_nil hmem), hle⟩
  case whole =>
    intro byte element leaf hcodes hleaf room hroom
    rcases h.codes_iff.mp hcodes with ⟨hbyte, rfl⟩
    have hmem := mem_counted_byteRates.mpr hbyte
    have hle := hrates.length_hufCode_le hmem
    have hcard := Forest.card_counted_le (byteRates block)
    have hbuffer : hufAsciiCount < huf1kibBuffer := by decide
    obtain ⟨p, hp, hstring⟩ := hbuilt.leaf _ byte.toNat_lt hmem
    cases hp.symm.trans hleaf
    rw [card_counted_byteRates] at hle
    rw [read_codeElement, ← List.map_reverse]
    apply hufNodeToString_of_length_lt hstring
    · rw [List.length_map, List.length_reverse]
      rw [card_counted_byteRates] at hcard
      omega
    · rw [List.length_map, List.length_reverse]
      omega

end

/-! ## The table of a block -/

/-- The statements of `huf_encode` that make the code table of a counted block. -/
def blockTable : CRoutine (EncodeRun ρ ω) Unit := do
  Routine.within EncodeRun.histogramTree hufTreeFromHistogram
  hufCreateCharCoding

theorem EncodeState.run_injective : Function.Injective (EncodeState.run (ρ := ρ) (ω := ω)) := by
  rintro ⟨config, bits, tree, mapping, histogram, ⟨writer, output⟩, ⟨reader, input⟩⟩
    ⟨config', bits', tree', mapping', histogram', ⟨writer', output'⟩, ⟨reader', input'⟩⟩ h
  rcases tree with ⟨tree, heap⟩
  rcases tree' with ⟨tree', heap'⟩
  cases h
  rfl

/-- The nodes of a tree do not depend on the schedule. -/
theorem SoundTable.of_schedule {block : List UInt8} {heap : Heap} {tree : HufTree}
    {mapping : HufSymbolMapping} (h : SoundTable block (schedule [] heap) tree mapping) :
    SoundTable block heap tree mapping := by
  refine ⟨h.length_symbols, h.coded, h.leads, h.prefixFree, h.length, ?_⟩
  intro byte element leaf hcodes hleaf room hroom
  rw [← hufNodeToString_schedule]
  exact h.whole byte element leaf hcodes hleaf room hroom

/-- A block has been counted; the tree and the mapping are reset. -/
structure Counted (block : List UInt8) (e : EncodeState ρ ω) : Prop where
  ne : block ≠ []
  lt : block.length < 2 ^ 64
  histogram : hufHistogramPopulate block emptyHistogram = .ok (.ok (), e.histogram)
  tree : e.tree.tree = ⟨noLeaves, none⟩
  mapping : e.mapping = emptyMapping

section

variable {e : EncodeState ρ ω} {block : List UInt8} {s : EncodeRun ρ ω}

theorem Counted.histogram_eq (h : Counted block e) : e.histogram = blockHistogram block := by
  have hcount := h.histogram
  rw [hufHistogramPopulate_eq h.lt, Except.ok.injEq, Prod.mk.injEq] at hcount
  exact hcount.2.symm

/-- The table is made as without failures. -/
theorem Counted.endures (h : Counted block e) :
    Endures (OnCore Disposable) (OnCore (Fresh e.config (blockHistogram block)))
      (blockTable (ρ := ρ) (ω := ω)) fun _ => OnCore (Coding e.config) := by
  apply (construct_endures h.ne h.lt).bind
  intro _
  exact (hufCreateCharCoding_endures (Coding.keeps e.config)).mono (fun _ hs => hs)
    (fun _ hs => onCore_mono (fun _ hc => hc.toDisposable) hs) fun _ _ hs => hs

theorem Counted.onCore (h : Counted block e) :
    OnCore (Fresh e.config (blockHistogram block)) e.run := by
  refine ⟨e, rfl, rfl, h.tree, h.histogram_eq, ?_⟩
  show e.mapping.symbols.length = e.mapping.length
  rw [h.mapping]
  exact List.length_replicate ..

/-- Without failures the table is made from the tree of the block, unless a signed sum
overflows. -/
theorem Counted.table_eq (h : Counted block e) :
    blockTable (schedule [] e.run) = .error .signedOverflow ∧ 2 ^ 63 ≤ block.length ∨
      ∃ e' : EncodeState ρ ω, blockTable (schedule [] e.run) = .ok (.ok (), e'.run) ∧
        Built (byteRates block) ⟨e'.tree.tree, e'.histogram, e'.tree.heap⟩ ∧
        WellFormed (Forest.counted (byteRates block)) e'.tree.heap e'.tree.tree ∧
        CodedBelow (byteRates block) hufAsciiCount e'.mapping := by
  have hrates : e.histogram.frequencies = byteRates block := by
    rw [h.histogram_eq]
    rfl
  have hbuildable : Buildable ⟨e.tree.tree, e.histogram, schedule [] e.tree.heap⟩ := by
    rw [h.histogram_eq]
    exact (byteHistogram_blockHistogram h.ne h.lt).buildable
      (s := ⟨e.tree.tree, blockHistogram block, e.tree.heap⟩) h.tree
  rcases hufTreeFromHistogram_eq hbuildable with ⟨hfault, -, hlarge⟩ | ⟨-, t, hrun, hbuilt, -⟩
  · rw [hrates, weight_byteRates] at hlarge
    refine Or.inl ⟨?_, hlarge⟩
    exact Routine.bind_of_fault (EncodeState.within_histogramTree_fault
      (e := { e with tree := schedule [] e.tree }) hfault)
  · have hwell := hbuildable.wellFormed hrun
    rw [hrates] at hbuilt hwell
    obtain ⟨mapping, hcoding, hcoded⟩ := hufCreateCharCoding_eq
      (e := { e with tree := ⟨t.tree, t.heap⟩, histogram := t.histogram }) hbuilt h.mapping
    refine Or.inr ⟨{ e with tree := ⟨t.tree, t.heap⟩, histogram := t.histogram, mapping }, ?_,
      hbuilt, hwell, hcoded⟩
    exact (Routine.bind_of_ok (EncodeState.within_histogramTree
      (e := { e with tree := schedule [] e.tree }) hrun)).trans hcoding

/-- What the objects hold when the table has been made. -/
theorem Counted.table_of_run (h : Counted block e) (hrun : blockTable e.run = .ok (.ok (), s)) :
    ∃ e' : EncodeState ρ ω, s = e'.run ∧
      CodedBelow (byteRates block) hufAsciiCount e'.mapping ∧
      SoundTable block e'.tree.heap e'.tree.tree e'.mapping := by
  obtain ⟨hsame, ⟨e', rfl, -⟩, -⟩ := h.endures.unfailing h.onCore hrun
  rcases h.table_eq with ⟨hfault, -⟩ | ⟨e'', hrun', hbuilt, hwell, hcoded⟩
  · cases hsame.symm.trans hfault
  · have hrates := countable_byteRates h.ne h.lt
    have hsound := hcoded.soundTable hbuilt hwell hrates
    have heq := hsame.symm.trans hrun'
    rw [Except.ok.injEq, Prod.mk.injEq] at heq
    have hstate : ({ e' with tree := schedule [] e'.tree } : EncodeState ρ ω).run = e''.run := heq.2
    obtain rfl := EncodeState.run_injective hstate
    exact ⟨e', rfl, hcoded, hsound.of_schedule⟩

/-- If no allocation fails, the table is made. -/
theorem Counted.succeeds (h : Counted block e) (hlen : block.length < 2 ^ 63)
    (halloc : false ∉ e.tree.heap.allocations) : ∃ s, blockTable e.run = .ok (.ok (), s) := by
  rcases h.table_eq with ⟨-, hlarge⟩ | ⟨e', hrun, -⟩
  · exact absurd hlen (Nat.not_lt.mpr hlarge)
  · obtain ⟨s, hrun', -⟩ := h.endures.succeeding h.onCore halloc hrun
    exact ⟨s, hrun'⟩

/-- After a block has been counted, its code table is a prefix code that leads to the
leaves of its bytes. -/
theorem blockTable_sound (h : Counted block e) :
    (block.length < 2 ^ 63 → false ∉ e.tree.heap.allocations →
      ∃ s, blockTable e.run = .ok (.ok (), s)) ∧
    ∀ s, blockTable e.run = .ok (.ok (), s) → ∃ e' : EncodeState ρ ω, s = e'.run ∧
      SoundTable block e'.tree.heap e'.tree.tree e'.mapping := by
  apply And.intro h.succeeds
  intro s hrun
  obtain ⟨e', hs, -, hsound⟩ := h.table_of_run hrun
  exact ⟨e', hs, hsound⟩

end

/-- An encoder between two streams in memory that has counted a block. -/
def countedEncoder (block : List UInt8) : EncodeState MemStream MemStream :=
  { newEncoder ⟨block.length, block.length, 0, 0, some memReadWriter, some memReadWriter⟩
      memReadWriter memReadWriter
      ⟨⟨⟨block, 0, block.length, block.length⟩, []⟩, ⟨⟨[], 0, 0, 0⟩, []⟩, ⟨fun _ => none, 0, []⟩⟩
    with histogram := blockHistogram block }

theorem counted_countedEncoder {block : List UInt8} (hne : block ≠ [])
    (hlen : block.length < 2 ^ 64) : Counted block (countedEncoder block) :=
  ⟨hne, hlen, hufHistogramPopulate_eq hlen, rfl, rfl⟩

/-- The table of two distinct bytes is made, and it is sound. -/
theorem blockTable_sound_two : ∃ e' : EncodeState MemStream MemStream,
    blockTable (countedEncoder [1, 2, 2]).run = .ok (.ok (), e'.run) ∧
      SoundTable [1, 2, 2] e'.tree.heap e'.tree.tree e'.mapping := by
  have h : Counted [1, 2, 2] (countedEncoder [1, 2, 2]) :=
    counted_countedEncoder (by decide) (by decide)
  obtain ⟨hends, hsound⟩ := blockTable_sound h
  obtain ⟨s, hrun⟩ := hends (by decide) List.not_mem_nil
  obtain ⟨e', rfl, htable⟩ := hsound s hrun
  exact ⟨e', hrun, htable⟩

end LibHuffman
