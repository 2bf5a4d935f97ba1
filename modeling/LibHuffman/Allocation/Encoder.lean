/-
# The encoder under failing allocations

Once `huf_encoder_init` has set every pointer of an encoder, a run follows the one
without failures, and leaves a tree and a mapping that can be released wherever an
allocation fails. A block begins with an empty tree and an empty histogram; so the
tree that its construction leaves is known.
-/

import LibHuffman.Allocation.Build
import LibHuffman.Encode.State

namespace LibHuffman

open Foundation Allocating

variable {ρ ω : Type}

/-! ## The objects of an encoder -/

namespace EncodeRun

theorem carries_huffmanTree : Carries (huffmanTree : Place Fault (EncodeRun ρ ω) TreeStore) where
  load s := by
    rcases s with ⟨_ | ⟨config, bits, _ | tree, mapping, histogram, writer, reader⟩, world⟩ <;> rfl
  load_allocations s t h := by
    rcases s with ⟨_ | ⟨config, bits, _ | tree, mapping, histogram, writer, reader⟩, world⟩ <;>
      cases h
    rfl
  store _ _ := rfl
  store_allocations _ _ := rfl

theorem carries_histogramTree :
    Carries (histogramTree : Place Fault (EncodeRun ρ ω) HistogramTree) where
  load s := by
    rcases s with ⟨_ | ⟨config, bits, _ | tree, mapping, _ | histogram, writer, reader⟩, world⟩ <;>
      rfl
  load_allocations s t h := by
    rcases s with ⟨_ | ⟨config, bits, _ | tree, mapping, _ | histogram, writer, reader⟩, world⟩ <;>
      cases h
    rfl
  store _ _ := rfl
  store_allocations _ _ := rfl

theorem separate_config : Separate (config : Place Fault (EncodeRun ρ ω) (HufConfig ρ ω)) where
  load _ := rfl
  store _ _ := rfl
  store_allocations _ _ := rfl
  store_load s b h := by
    rcases s with ⟨_ | ⟨_ | config, bits, tree, mapping, histogram, writer, reader⟩, world⟩ <;>
      cases h
    rfl

theorem separate_bitWriter :
    Separate (bitWriter : Place Fault (EncodeRun ρ ω) HufBitReadWriter) where
  load _ := rfl
  store _ _ := rfl
  store_allocations _ _ := rfl
  store_load s b h := by
    rcases s with ⟨_ | ⟨config, bits, tree, mapping, histogram, writer, reader⟩, world⟩ <;> cases h
    rfl

theorem separate_mapping :
    Separate (mapping : Place Fault (EncodeRun ρ ω) HufSymbolMapping) where
  load _ := rfl
  store _ _ := rfl
  store_allocations _ _ := rfl
  store_load s b h := by
    rcases s with ⟨_ | ⟨config, bits, tree, _ | mapping, histogram, writer, reader⟩, world⟩ <;>
      cases h
    rfl

theorem separate_histogram :
    Separate (histogram : Place Fault (EncodeRun ρ ω) HufHistogram) where
  load _ := rfl
  store _ _ := rfl
  store_allocations _ _ := rfl
  store_load s b h := by
    rcases s with ⟨_ | ⟨config, bits, tree, mapping, _ | histogram, writer, reader⟩, world⟩ <;>
      cases h
    rfl

theorem separate_bufioReader :
    Separate (bufioReader : Place Fault (EncodeRun ρ ω) (Buffered ρ)) where
  load _ := rfl
  store _ _ := rfl
  store_allocations _ _ := rfl
  store_load s b h := by
    rcases s with ⟨_ | ⟨config, bits, tree, mapping, histogram, writer, _ | reader⟩, world⟩ <;>
      cases h
    rfl

theorem separate_bufioWriter :
    Separate (bufioWriter : Place Fault (EncodeRun ρ ω) (Buffered ω)) where
  load _ := rfl
  store _ _ := rfl
  store_allocations _ _ := rfl
  store_load s b h := by
    rcases s with ⟨_ | ⟨config, bits, tree, mapping, histogram, _ | writer, reader⟩, world⟩ <;>
      cases h
    rfl

end EncodeRun

/-! ## Runs that keep the encoder together -/

/-- What the routines of an encoder share besides the streams. -/
structure EncodeCore (ρ ω : Type) where
  config : HufConfig ρ ω
  tree : TreeStore
  mapping : HufSymbolMapping
  histogram : HufHistogram

def EncodeState.core (e : EncodeState ρ ω) : EncodeCore ρ ω :=
  ⟨e.config, e.tree, e.mapping, e.histogram⟩

/-- The tree and the mapping can be released. -/
structure EncodeCore.Disposable (c : EncodeCore ρ ω) : Prop where
  rooted : Rooted c.tree
  length_symbols : c.mapping.symbols.length = c.mapping.length

/-- All pointers of the encoder are set, and its objects have a property. -/
def EncodeRun.OnCore (P : EncodeCore ρ ω → Prop) (s : EncodeRun ρ ω) : Prop :=
  ∃ e : EncodeState ρ ω, s = e.run ∧ P e.core

namespace EncodeRun

section

variable {P Inv : EncodeCore ρ ω → Prop} {α β : Type}

theorem onCore_mono {Q : EncodeCore ρ ω → Prop} (h : ∀ c, P c → Q c) {s : EncodeRun ρ ω}
    (hs : OnCore P s) : OnCore Q s := by
  rcases hs with ⟨e, hrun, he⟩
  exact ⟨e, hrun, h _ he⟩

/-- A routine on an object that is none of those. -/
theorem outside_endures {place : Place Fault (EncodeRun ρ ω) β} (hplace : Separate place)
    (hstore : ∀ (e : EncodeState ρ ω) b,
      ∃ e' : EncodeState ρ ω, place.store b e.run = e'.run ∧ e'.core = e.core)
    (x : CRoutine β α) (hinv : ∀ c, P c → Inv c) :
    Endures (OnCore Inv) (OnCore P) (Routine.within place x) fun _ => OnCore P := by
  have hkeeps : ∀ s b, OnCore P s → OnCore P (place.store b s) := by
    rintro _ b ⟨e, rfl, he⟩
    rcases hstore e b with ⟨e', hrun, hcore⟩
    exact ⟨e', hrun, hcore ▸ he⟩
  apply Endures.separate hplace
  · exact fun s _ _ b hs _ _ => onCore_mono hinv (hkeeps s b hs)
  · exact fun s _ _ b hs _ _ => hkeeps s b hs

theorem reader_endures (x : CRoutine (Buffered ρ) α) (hinv : ∀ c, P c → Inv c) :
    Endures (OnCore Inv) (OnCore P) (Routine.within bufioReader x) fun _ => OnCore P :=
  outside_endures separate_bufioReader (fun e b => ⟨{ e with reader := b }, rfl, rfl⟩) x hinv

theorem writer_endures (x : CRoutine (Buffered ω) α) (hinv : ∀ c, P c → Inv c) :
    Endures (OnCore Inv) (OnCore P) (Routine.within bufioWriter x) fun _ => OnCore P :=
  outside_endures separate_bufioWriter (fun e b => ⟨{ e with writer := b }, rfl, rfl⟩) x hinv

theorem bitWriter_endures (x : CRoutine HufBitReadWriter α) (hinv : ∀ c, P c → Inv c) :
    Endures (OnCore Inv) (OnCore P) (Routine.within bitWriter x) fun _ => OnCore P :=
  outside_endures separate_bitWriter (fun e b => ⟨{ e with bitWriter := b }, rfl, rfl⟩) x hinv

theorem mapping_endures {x : CRoutine HufSymbolMapping α} {Post : α → EncodeCore ρ ω → Prop}
    (hinv : ∀ c code m, P c → x c.mapping = .ok (.error code, m) → Inv { c with mapping := m })
    (hpost : ∀ c a m, P c → x c.mapping = .ok (.ok a, m) → Post a { c with mapping := m }) :
    Endures (OnCore Inv) (OnCore P) (Routine.within mapping x) fun a => OnCore (Post a) := by
  apply Endures.separate separate_mapping
  · rintro _ _ code m ⟨e, rfl, he⟩ ⟨⟩ hrun
    exact ⟨{ e with mapping := m }, rfl, hinv _ code m he hrun⟩
  · rintro _ _ a m ⟨e, rfl, he⟩ ⟨⟩ hrun
    exact ⟨{ e with mapping := m }, rfl, hpost _ a m he hrun⟩

theorem histogram_endures {x : CRoutine HufHistogram α} {Post : α → EncodeCore ρ ω → Prop}
    (hinv : ∀ c code h, P c → x c.histogram = .ok (.error code, h) → Inv { c with histogram := h })
    (hpost : ∀ c a h, P c → x c.histogram = .ok (.ok a, h) → Post a { c with histogram := h }) :
    Endures (OnCore Inv) (OnCore P) (Routine.within histogram x) fun a => OnCore (Post a) := by
  apply Endures.separate separate_histogram
  · rintro _ _ code h ⟨e, rfl, he⟩ ⟨⟩ hrun
    exact ⟨{ e with histogram := h }, rfl, hinv _ code h he hrun⟩
  · rintro _ _ a h ⟨e, rfl, he⟩ ⟨⟩ hrun
    exact ⟨{ e with histogram := h }, rfl, hpost _ a h he hrun⟩

/-- A routine on the tree; what it does may depend on the rest. -/
theorem tree_endures {x : CRoutine TreeStore α} {Post : α → EncodeCore ρ ω → Prop}
    (h : ∀ c, P c → Endures (fun t => Inv { c with tree := t }) (fun t => t = c.tree) x
      fun a t => Post a { c with tree := t }) :
    Endures (OnCore Inv) (OnCore P) (Routine.within huffmanTree x) fun a => OnCore (Post a) := by
  apply Endures.within carries_huffmanTree
  rintro _ _ ⟨e, rfl, he⟩ ⟨⟩
  apply (h _ he).mono (fun _ ht => ht)
  · exact fun t ht => ⟨{ e with tree := t }, rfl, ht⟩
  · exact fun a t ht => ⟨{ e with tree := t }, rfl, ht⟩

/-- A routine on the tree and the histogram. -/
theorem histogramTree_endures {x : CRoutine HistogramTree α} {Post : α → EncodeCore ρ ω → Prop}
    (h : ∀ c, P c → Endures
      (fun t => Inv { c with tree := ⟨t.tree, t.heap⟩, histogram := t.histogram })
      (fun t => t = ⟨c.tree.tree, c.histogram, c.tree.heap⟩) x
      fun a t => Post a { c with tree := ⟨t.tree, t.heap⟩, histogram := t.histogram }) :
    Endures (OnCore Inv) (OnCore P) (Routine.within histogramTree x) fun a => OnCore (Post a) := by
  apply Endures.within carries_histogramTree
  rintro _ _ ⟨e, rfl, he⟩ ⟨⟩
  apply (h _ he).mono (fun _ ht => ht)
  · exact fun t ht => ⟨{ e with tree := ⟨t.tree, t.heap⟩, histogram := t.histogram }, rfl, ht⟩
  · exact fun a t ht => ⟨{ e with tree := ⟨t.tree, t.heap⟩, histogram := t.histogram }, rfl, ht⟩

/-- Allocations next to the objects. -/
theorem allocator_endures {x : CRoutine (List Bool) α}
    (hx : Endures (fun _ => True) (fun _ => True) x fun _ _ => True)
    (hP : ∀ c outcomes, P c →
      P { c with tree := { c.tree with heap := { c.tree.heap with allocations := outcomes } } })
    (hinv : ∀ c, P c → Inv c) :
    Endures (OnCore Inv) (OnCore P)
      (Routine.within (SelfRun.allocator : Place Fault (EncodeRun ρ ω) (List Bool)) x)
      fun _ => OnCore P := by
  apply SelfRun.allocator_endures hx _ fun _ hs => onCore_mono hinv hs
  rintro _ outcomes ⟨e, rfl, he⟩
  exact ⟨{ e with tree := { e.tree with heap := { e.tree.heap with allocations := outcomes } } },
    rfl, hP _ outcomes he⟩

/-- A routine that goes on with the tree. -/
theorem tree_bind {f : TreeStore → CRoutine (EncodeRun ρ ω) α} {Inv Pre : EncodeRun ρ ω → Prop}
    {Post : α → EncodeRun ρ ω → Prop} (hsame : ∀ t, f (schedule [] t) = f t)
    (h : ∀ t, Endures Inv Pre (f t) Post) :
    Endures Inv Pre (Routine.within huffmanTree Routine.get >>= f) Post := by
  apply Endures.carried_bind carries_huffmanTree _ hsame
  · exact fun t => (h t).strengthen fun _ hs => hs.1
  · intro s t hload
    rcases s with ⟨_ | ⟨config, bits, _ | tree, mapping, histogram, writer, reader⟩, world⟩ <;>
      cases hload
    rfl

end

end EncodeRun

/-! ## The routines of the encoder -/

theorem hufNodeToString_schedule (heap : Heap) (room : ℕ) (pointer : Option ℕ) :
    hufNodeToString (schedule [] heap) room pointer = hufNodeToString heap room pointer := by
  induction room generalizing pointer with
  | zero => cases pointer <;> rfl
  | succ room ih =>
      cases pointer with
      | none => rfl
      | some p =>
          rw [hufNodeToString, hufNodeToString]
          simp only [ih]
          rfl

theorem hufSerializeTree_schedule (heap : Heap) (fuel : ℕ) (pointer : Option ℕ) (buf : List Int16)
    (pos : ℕ) :
    hufSerializeTree (schedule [] heap) fuel pointer buf pos =
      hufSerializeTree heap fuel pointer buf pos := by
  induction fuel generalizing pointer buf pos with
  | zero => rfl
  | succ fuel ih =>
      cases pointer with
      | none => rfl
      | some p =>
          rw [hufSerializeTree, hufSerializeTree]
          simp only [ih]
          rfl

theorem hufTreeSerialize_schedule (t : TreeStore) (buf : List Int16) :
    hufTreeSerialize (schedule [] t) buf = hufTreeSerialize t buf :=
  hufSerializeTree_schedule t.heap _ _ _ _

section

variable {position : ℕ} {m m' : HufSymbolMapping}

theorem requirePosition_same {r : Except HufError Unit}
    (h : requirePosition position m = .ok (r, m')) : m' = m := by
  rw [requirePosition, Routine.get_bind_apply] at h
  split at h <;> cases h <;> rfl

theorem hufSymbolMappingGet_same {r : Except HufError (Option HufSymbolMappingElement)}
    (h : hufSymbolMappingGet position m = .ok (r, m')) : m' = m := by
  rw [hufSymbolMappingGet] at h
  match hposition : requirePosition position m with
  | .error fault =>
      rw [Routine.bind_of_fault hposition] at h
      cases h
  | .ok (.error code, m₁) =>
      rw [Routine.bind_of_error hposition] at h
      cases h
      exact requirePosition_same hposition
  | .ok (.ok _, m₁) =>
      rw [Routine.bind_of_ok hposition, Routine.get_bind_apply] at h
      cases hload : load m₁.symbols position with
      | error fault =>
          rw [hload] at h
          cases h
      | ok element =>
          rw [hload] at h
          cases h
          exact requirePosition_same hposition

/-- An insertion changes neither length of a mapping. -/
theorem length_hufSymbolMappingInsert {element : HufSymbolMappingElement}
    {r : Except HufError Unit} (h : hufSymbolMappingInsert position element m = .ok (r, m')) :
    m'.length = m.length ∧ m'.symbols.length = m.symbols.length := by
  rw [hufSymbolMappingInsert] at h
  match hposition : requirePosition position m with
  | .error fault =>
      rw [Routine.bind_of_fault hposition] at h
      cases h
  | .ok (.error code, m₁) =>
      rw [Routine.bind_of_error hposition] at h
      cases h
      cases requirePosition_same hposition
      exact ⟨rfl, rfl⟩
  | .ok (.ok _, m₁) =>
      cases requirePosition_same hposition
      rw [Routine.bind_of_ok hposition, Routine.get_bind_apply] at h
      cases hload : load m.symbols position with
      | error fault =>
          rw [hload] at h
          cases h
      | ok old =>
          rw [hload, Routine.demand_ok_bind_apply, Routine.get_bind_apply] at h
          rw [store] at h
          split at h
          · cases h
            exact ⟨rfl, List.length_set ..⟩
          · cases h

end

section

open EncodeRun EncodeCore

variable {P Inv : EncodeCore ρ ω → Prop}

theorem writeBit_endures (bit : UInt8) (hinv : ∀ c, P c → Inv c) :
    Endures (OnCore Inv) (OnCore P) (writeBit bit) fun _ => OnCore P := by
  apply (bitWriter_endures _ hinv).bind
  intro _
  apply Endures.read_bind separate_bitWriter
  intro bitWriter
  apply Endures.strengthen _ fun s hs => hs.1
  apply Endures.ite
  · intro _
    apply (writer_endures _ hinv).bind
    intro _
    exact bitWriter_endures _ hinv
  · exact fun _ => Endures.pure fun _ hs => hs

theorem writeCoding_endures (element : HufSymbolMappingElement) (n : ℕ)
    (hinv : ∀ c, P c → Inv c) :
    Endures (OnCore Inv) (OnCore P) (writeCoding element n) fun _ => OnCore P := by
  induction n with
  | zero => exact Endures.pure fun _ hs => hs
  | succ n ih =>
      apply Endures.demand_bind
      intro bit _
      apply (writeBit_endures bit hinv).bind
      intro _
      exact ih

theorem encodeByte_endures (byte : UInt8) (hP : ∀ c, P c → Inv c) :
    Endures (OnCore Inv) (OnCore P) (encodeByte byte) fun _ => OnCore P := by
  apply Endures.bind (Q := fun _ => OnCore P)
  · apply mapping_endures
    · intro c code m hc hrun
      rw [hufSymbolMappingGet_same hrun]
      exact hP c hc
    · intro c element m hc hrun
      rw [hufSymbolMappingGet_same hrun]
      exact hc
  intro element
  apply Endures.demand_bind
  intro element _
  exact writeCoding_endures element _ hP

theorem hufEncodeBlock_endures (buf : List UInt8) (hP : ∀ c, P c → Inv c) :
    Endures (OnCore Inv) (OnCore P) (hufEncodeBlock buf) fun _ => OnCore P := by
  apply Endures.bind
  · exact Endures.forM buf fun byte _ => encodeByte_endures byte hP
  intro _
  apply Endures.read_bind separate_bitWriter
  intro bitWriter
  apply Endures.strengthen _ fun s hs => hs.1
  apply Endures.ite
  · exact fun _ => writer_endures _ hP
  · exact fun _ => Endures.pure fun _ hs => hs

/-! ## The code table -/

theorem hufSymbolMappingElementInit_endures (coding : List UInt8) :
    Endures (fun _ => True) (fun _ => True) (hufSymbolMappingElementInit coding)
      fun _ _ => True := by
  apply hufMalloc_endures.bind
  intro _
  apply hufMalloc_endures.bind
  intro _
  exact Endures.pure fun _ _ => trivial

/-- A table is filled without a change of its length. -/
structure EncodeCore.Keeps (P : EncodeCore ρ ω → Prop) : Prop where
  allocations : ∀ c outcomes, P c →
    P { c with tree := { c.tree with heap := { c.tree.heap with allocations := outcomes } } }
  mapping : ∀ c m, P c → m.length = c.mapping.length →
    m.symbols.length = c.mapping.symbols.length → P { c with mapping := m }

theorem createCoding_endures (index : ℕ) (hP : Keeps P) :
    Endures (OnCore P) (OnCore P) (createCoding index) fun _ => OnCore P := by
  apply tree_bind
  · intro t
    have hstring : hufNodeToString (schedule [] t).heap = hufNodeToString t.heap :=
      funext₂ fun room pointer => hufNodeToString_schedule t.heap room pointer
    simp only [hstring]
    rfl
  intro t
  apply Endures.demand_bind
  intro node _
  apply Endures.ite
  · intro _
    apply Endures.demand_bind
    intro coding _
    apply (allocator_endures (hufSymbolMappingElementInit_endures coding) hP.allocations
      fun _ hc => hc).bind
    intro element
    apply mapping_endures
    · intro c code m hc hrun
      rcases length_hufSymbolMappingInsert hrun with ⟨hlength, hsymbols⟩
      exact hP.mapping c m hc hlength hsymbols
    · intro c _ m hc hrun
      rcases length_hufSymbolMappingInsert hrun with ⟨hlength, hsymbols⟩
      exact hP.mapping c m hc hlength hsymbols
  · exact fun _ => Endures.pure fun _ hs => hs

theorem hufCreateCharCoding_endures (hP : Keeps P) :
    Endures (OnCore P) (OnCore P) (hufCreateCharCoding (ρ := ρ) (ω := ω)) fun _ => OnCore P := by
  apply Endures.read_bind separate_mapping
  intro mapping
  apply Endures.strengthen _ fun s hs => hs.1
  exact Endures.forM _ fun index _ => createCoding_endures index hP

end

/-! ## One block -/

namespace EncodeCore

/-- Before a block the tree and the histogram are empty. -/
structure Fresh (config : HufConfig ρ ω) (histogram : HufHistogram) (c : EncodeCore ρ ω) :
    Prop where
  config : c.config = config
  tree : c.tree.tree = ⟨noLeaves, none⟩
  histogram : c.histogram = histogram
  length_symbols : c.mapping.symbols.length = c.mapping.length

/-- Within a block they can be emptied again. -/
structure Coding (config : HufConfig ρ ω) (c : EncodeCore ρ ω) : Prop extends Disposable c where
  config : c.config = config
  length : c.histogram.length = hufHistogramLen
  iota : c.histogram.iota = 1

theorem Fresh.disposable {config : HufConfig ρ ω} {histogram : HufHistogram}
    {c : EncodeCore ρ ω} (h : Fresh config histogram c) : Disposable c := by
  refine ⟨⟨.nil, ?_⟩, h.length_symbols⟩
  rw [h.tree]
  exact Heap.holds_none _

theorem Coding.keeps (config : HufConfig ρ ω) : Keeps (Coding config) where
  allocations c outcomes h := by
    rcases h.rooted with ⟨tree, htree⟩
    exact ⟨⟨⟨tree, htree.of_nodes rfl rfl⟩, h.length_symbols⟩, h.config, h.length, h.iota⟩
  mapping c m h hlength hsymbols :=
    ⟨⟨h.rooted, by rw [hlength, hsymbols, h.length_symbols]⟩, h.config, h.length, h.iota⟩

end EncodeCore

section

open EncodeRun EncodeCore

variable {config : HufConfig ρ ω}

/-- A routine that goes on with the configuration. -/
theorem config_bind {α : Type} {f : HufConfig ρ ω → CRoutine (EncodeRun ρ ω) α}
    {h : HufHistogram} {Inv : EncodeRun ρ ω → Prop} {Post : α → EncodeRun ρ ω → Prop}
    (hf : Endures Inv (OnCore (Fresh config h)) (f config) Post) :
    Endures Inv (OnCore (Fresh config h))
      (Routine.within EncodeRun.config Routine.get >>= f) Post := by
  apply Endures.read_bind separate_config
  intro config'
  apply Endures.strengthen (P := fun s => config' = config ∧ OnCore (Fresh config h) s)
  · apply Endures.assume
    rintro rfl
    exact hf
  · rintro _ ⟨⟨e, rfl, he⟩, ⟨⟩⟩
    exact ⟨he.config, e, rfl, he⟩

/-- Counting a block. -/
theorem populate_endures {block : List UInt8} (hlen : block.length < 2 ^ 64) :
    Endures (OnCore Disposable) (OnCore (Fresh config emptyHistogram))
      (Routine.within histogram (hufHistogramPopulate block))
      fun _ => OnCore (Fresh config (blockHistogram block)) := by
  apply histogram_endures
  · intro c code h hc hrun
    rw [hc.histogram, hufHistogramPopulate_eq hlen] at hrun
    cases hrun
  · intro c _ h hc hrun
    rw [hc.histogram, hufHistogramPopulate_eq hlen] at hrun
    cases hrun
    exact ⟨hc.config, hc.tree, rfl, hc.length_symbols⟩

/-- Building the tree of a block. -/
theorem construct_endures {block : List UInt8} (hne : block ≠ []) (hlen : block.length < 2 ^ 64) :
    Endures (OnCore Disposable) (OnCore (Fresh config (blockHistogram block)))
      (Routine.within histogramTree hufTreeFromHistogram)
      fun _ => OnCore (Coding config) := by
  apply histogramTree_endures
  intro c hc
  have hempty : ∀ t : HistogramTree, t.tree.root = none →
      Disposable { c with tree := ⟨t.tree, t.heap⟩, histogram := t.histogram } := fun t ht =>
    ⟨⟨.nil, by rw [ht]; exact Heap.holds_none _⟩, hc.length_symbols⟩
  apply ((hufTreeFromHistogram_endures none).mono _ hempty fun _ _ _ => trivial).determine
  · rintro _ _ t rfl hrun
    have hbuildable : Buildable ⟨c.tree.tree, c.histogram, schedule [] c.tree.heap⟩ := by
      rw [hc.histogram]
      exact ⟨countable_byteRates hne hlen, fun k hk => byteRates_below_least hk,
        congrArg HufTree.leaves hc.tree, rfl⟩
    rcases hufTreeFromHistogram_eq hbuildable with ⟨hfault, -⟩ | ⟨-, t', hrun', hbuilt, hhistogram⟩
    · exact nomatch hfault.symm.trans hrun
    · cases hrun'.symm.trans hrun
      have hhistogram' : t.histogram = _ := hhistogram
      refine ⟨⟨⟨_, hbuilt.holds.of_nodes rfl rfl⟩, hc.length_symbols⟩, hc.config, ?_, ?_⟩
      · show t.histogram.length = _
        rw [hhistogram', hc.histogram]
        rfl
      · show t.histogram.iota = _
        rw [hhistogram', hc.histogram]
        rfl
  · rintro _ rfl
    exact congrArg HufTree.root hc.tree

/-- The tree after a reset. -/
structure EncodeCore.Emptied (config : HufConfig ρ ω) (c : EncodeCore ρ ω) : Prop
    extends Coding config c where
  tree : c.tree.tree = ⟨noLeaves, none⟩

theorem resetTree_endures :
    Endures (OnCore Disposable) (OnCore (Coding config)) (Routine.within huffmanTree hufTreeReset)
      fun _ => OnCore (Emptied config) := by
  apply tree_endures
  intro c hc
  apply hufTreeReset_endures.weaken
  intro _ t ht
  exact ⟨⟨⟨⟨.nil, by rw [ht]; exact Heap.holds_none _⟩, hc.length_symbols⟩, hc.config, hc.length,
    hc.iota⟩, ht⟩

theorem resetHistogram_endures :
    Endures (OnCore Disposable) (OnCore (Emptied config))
      (Routine.within histogram hufHistogramReset)
      fun _ => OnCore (Fresh config emptyHistogram) := by
  apply histogram_endures
  · rintro c code h hc ⟨⟩
  · rintro c _ h hc ⟨⟩
    refine ⟨hc.config, hc.tree, ?_, hc.length_symbols⟩
    show HufHistogram.mk _ _ _ _ = _
    rw [hc.length, hc.iota]
    rfl

theorem resetMapping_endures :
    Endures (OnCore Disposable) (OnCore (Fresh config emptyHistogram))
      (Routine.within mapping hufSymbolMappingReset)
      fun _ => OnCore (Fresh config emptyHistogram) := by
  apply mapping_endures
  · intro c code m hc hrun
    rw [hufSymbolMappingReset, hufSymbolMappingFreeElements_eq hc.length_symbols] at hrun
    cases hrun
  · intro c _ m hc hrun
    rw [hufSymbolMappingReset, hufSymbolMappingFreeElements_eq hc.length_symbols] at hrun
    cases hrun
    exact ⟨hc.config, hc.tree, hc.histogram, List.length_replicate ..⟩

/-- Where the loop of the encoder is between two blocks. -/
def EncodeCore.BetweenBlocks (config : HufConfig ρ ω) (l : EncodeLocals)
    (c : EncodeCore ρ ω) : Prop :=
  if l.leftToRead = 0 then Disposable c else Fresh config emptyHistogram c

/-- One block, which takes some of the bytes that are left. -/
theorem encodeNextBlock_endures (l : EncodeLocals) (hlt : l.leftToRead < 2 ^ 64)
    (hpos : l.leftToRead ≠ 0) (hblocksize : config.blocksize ≠ 0) :
    Endures (OnCore Disposable) (OnCore (Fresh config emptyHistogram)) (encodeNextBlock l)
      fun step s => match step with
        | .next l' => l'.leftToRead ≤ l.leftToRead ∧ OnCore (BetweenBlocks config l') s
        | .leave _ => False := by
  apply config_bind
  dsimp only
  have hneed : (if l.leftToRead < config.blocksize then l.leftToRead else config.blocksize) ≠ 0 ∧
      (if l.leftToRead < config.blocksize then l.leftToRead else config.blocksize) ≤
        l.leftToRead := by
    split <;> omega
  generalize (if l.leftToRead < config.blocksize then l.leftToRead else config.blocksize) =
    needToRead at hneed
  rcases hneed with ⟨hne, hle⟩
  apply Endures.demand_bind
  intro dest hdest
  have hread := (reader_endures (ω := ω) (P := Fresh config emptyHistogram) (hufBufioRead dest)
    fun _ hc => hc.disposable).returning (V := fun block => block.length = needToRead) (by
      intro s block s' hrun
      rcases Routine.within_eq_ok hrun with ⟨b, b', -, hrun, -⟩
      rw [length_hufBufioRead hrun, length_slice hdest])
  apply hread.bind
  intro block
  apply Endures.assume
  rintro rfl
  apply Endures.demand_bind
  intro buf _
  apply (populate_endures (by omega)).bind
  intro _
  apply (construct_endures (fun h => hne (by rw [h]; rfl)) (by omega)).bind
  intro _
  have hrelease : ∀ c : EncodeCore ρ ω, Coding config c → Disposable c :=
    fun _ hc => hc.toDisposable
  apply ((hufCreateCharCoding_endures (Coding.keeps config)).mono (fun _ hs => hs)
    (fun _ hs => onCore_mono hrelease hs) fun _ _ hs => hs).bind
  intro _
  apply tree_bind fun t => by simp only [hufTreeSerialize_schedule]
  intro t
  apply Endures.demand_bind
  rintro ⟨treeHead, treeLength⟩ _
  dsimp only
  apply (writer_endures _ hrelease).bind
  intro _
  apply (writer_endures _ hrelease).bind
  intro _
  apply Endures.demand_bind
  intro words _
  apply (writer_endures _ hrelease).bind
  intro _
  apply (bitWriter_endures _ hrelease).bind
  intro _
  apply (hufEncodeBlock_endures block hrelease).bind
  intro _
  have hleft : sizeSub l.leftToRead block.length ≤ l.leftToRead := by
    rw [sizeSub_of_le hle]
    omega
  apply Endures.ite
  · intro hmore
    apply resetTree_endures.bind
    intro _
    apply resetHistogram_endures.bind
    intro _
    apply resetMapping_endures.bind
    intro _
    apply Endures.pure
    intro s hs
    refine ⟨hleft, onCore_mono (fun c hc => ?_) hs⟩
    rw [BetweenBlocks, if_neg hmore]
    exact hc
  · intro hdone
    apply Endures.pure
    intro s hs
    refine ⟨hleft, onCore_mono (fun c hc => ?_) hs⟩
    rw [BetweenBlocks, if_pos (not_not.mp hdone)]
    exact hrelease c hc

/-- The blocks follow those without failures, and the tree and the mapping can be
released wherever they end. -/
theorem encodeBlocks_endures (hlength : config.length < 2 ^ 64)
    (hblocksize : config.blocksize = 0 → config.length = 0) :
    Endures (OnCore Disposable) (OnCore (Fresh config emptyHistogram))
      (encodeBlocks (ρ := ρ) (ω := ω)) fun _ => OnCore Disposable := by
  apply config_bind
  apply (allocator_endures hufMalloc_endures
    (fun _ _ hc => ⟨hc.config, hc.tree, hc.histogram, hc.length_symbols⟩)
    fun _ hc => hc.disposable).bind
  intro _
  apply Endures.bind (Q := fun _ => OnCore Disposable)
  · have hbetween : ∀ (l : EncodeLocals) (c : EncodeCore ρ ω), BetweenBlocks config l c →
        Disposable c := by
      intro l c hc
      rw [BetweenBlocks] at hc
      split at hc
      · exact hc
      · exact hc.disposable
    apply (Endures.whileLoop (I := OnCore Disposable) (Q := fun _ => OnCore Disposable)
      (fun l s => l.leftToRead ≤ config.length ∧ OnCore (BetweenBlocks config l) s)
      (fun l s => (l.leftToRead ≤ config.length ∧ l.leftToRead ≠ 0) ∧
        OnCore (Fresh config emptyHistogram) s) _ _ _ _).strengthen
    · intro s hs
      refine ⟨Nat.le_refl _, onCore_mono (fun c hc => ?_) hs⟩
      rw [BetweenBlocks]
      split
      · exact hc.disposable
      · exact hc
    · intro l
      apply Endures.pure
      rintro s ⟨hle, hs⟩
      split
      · rename_i hmore
        have hpos : l.leftToRead ≠ 0 := Nat.pos_iff_ne_zero.mp (of_decide_eq_true hmore)
        refine ⟨⟨hle, hpos⟩, onCore_mono (fun c hc => ?_) hs⟩
        rwa [BetweenBlocks, if_neg hpos] at hc
      · exact onCore_mono (hbetween l) hs
    · intro l
      apply Endures.assume
      rintro ⟨hle, hpos⟩
      apply (encodeNextBlock_endures l (by omega) hpos (by omega)).weaken
      intro step s hstep
      cases step with
      | next l' => exact ⟨Nat.le_trans hstep.1 hle, hstep.2⟩
      | leave l' => exact hstep.elim
  · intro _
    exact writer_endures _ fun _ hc => hc

end

end LibHuffman
