/-
# The state of a running encoder

Between `huf_encoder_init` and `huf_encoder_free` no pointer of an encoder is null.
An `EncodeState` is such an encoder together with the streams and the heap, and
`EncodeState.run` is where the routines find it.
-/

import LibHuffman.Encode.Histogram
import LibHuffman.Model.Encoder
import LibHuffman.Streams.Reader
import LibHuffman.Streams.Writer
import LibHuffman.Trees.Codes
import LibHuffman.Trees.Release

namespace LibHuffman

open Foundation

variable {ρ ω : Type}

/-- An encoder whose pointers are all set, and the objects of its caller. -/
structure EncodeState (ρ ω : Type) where
  config : HufConfig ρ ω
  bitWriter : HufBitReadWriter
  tree : TreeStore
  mapping : HufSymbolMapping
  histogram : HufHistogram
  writer : Buffered ω
  reader : Buffered ρ

namespace EncodeState

/-- The state as the routines of the encoder see it. -/
def run (e : EncodeState ρ ω) : EncodeRun ρ ω :=
  (some ⟨some e.config, e.bitWriter, some e.tree.tree, some e.mapping, some e.histogram,
    some e.writer.bufio, some e.reader.bufio⟩, ⟨e.reader.stream, e.writer.stream, e.tree.heap⟩)

section

variable {α : Type} {e : EncodeState ρ ω} {r : Except HufError α}

theorem within_config {x : CRoutine (HufConfig ρ ω) α} {config : HufConfig ρ ω}
    (h : x e.config = .ok (r, config)) :
    Routine.within EncodeRun.config x e.run = .ok (r, { e with config }.run) :=
  Routine.within_of_ok rfl h

theorem within_bitWriter {x : CRoutine HufBitReadWriter α} {bitWriter : HufBitReadWriter}
    (h : x e.bitWriter = .ok (r, bitWriter)) :
    Routine.within EncodeRun.bitWriter x e.run = .ok (r, { e with bitWriter }.run) :=
  Routine.within_of_ok rfl h

theorem within_tree {x : CRoutine TreeStore α} {tree : TreeStore} (h : x e.tree = .ok (r, tree)) :
    Routine.within EncodeRun.huffmanTree x e.run = .ok (r, { e with tree }.run) :=
  Routine.within_of_ok rfl h

theorem within_mapping {x : CRoutine HufSymbolMapping α} {mapping : HufSymbolMapping}
    (h : x e.mapping = .ok (r, mapping)) :
    Routine.within EncodeRun.mapping x e.run = .ok (r, { e with mapping }.run) :=
  Routine.within_of_ok rfl h

theorem within_histogram {x : CRoutine HufHistogram α} {histogram : HufHistogram}
    (h : x e.histogram = .ok (r, histogram)) :
    Routine.within EncodeRun.histogram x e.run = .ok (r, { e with histogram }.run) :=
  Routine.within_of_ok rfl h

theorem within_histogramTree {x : CRoutine HistogramTree α} {t : HistogramTree}
    (h : x ⟨e.tree.tree, e.histogram, e.tree.heap⟩ = .ok (r, t)) :
    Routine.within EncodeRun.histogramTree x e.run =
      .ok (r, { e with tree := ⟨t.tree, t.heap⟩, histogram := t.histogram }.run) :=
  Routine.within_of_ok rfl h

theorem within_histogramTree_fault {x : CRoutine HistogramTree α} {fault : Fault}
    (h : x ⟨e.tree.tree, e.histogram, e.tree.heap⟩ = .error fault) :
    Routine.within EncodeRun.histogramTree x e.run = .error fault :=
  Routine.within_of_fault rfl h

theorem within_reader {x : CRoutine (Buffered ρ) α} {reader : Buffered ρ}
    (h : x e.reader = .ok (r, reader)) :
    Routine.within EncodeRun.bufioReader x e.run = .ok (r, { e with reader }.run) :=
  Routine.within_of_ok rfl h

theorem within_writer {x : CRoutine (Buffered ω) α} {writer : Buffered ω}
    (h : x e.writer = .ok (r, writer)) :
    Routine.within EncodeRun.bufioWriter x e.run = .ok (r, { e with writer }.run) :=
  Routine.within_of_ok rfl h

end

end EncodeState

/-! ## The symbol mapping -/

/-- A mapping without elements. -/
def emptyMapping : HufSymbolMapping := ⟨hufAsciiCount, List.replicate hufAsciiCount none⟩

/-- The release of one slot. -/
def freeElement (index : ℕ) : CRoutine HufSymbolMapping Unit := do
  match ← Routine.demand (load (← Routine.get).symbols index) with
  | none => pure ()
  | some _ =>
    let symbols ← Routine.demand (store (← Routine.get).symbols index none)
    Routine.modify fun self => { self with symbols }

/-- Releasing the elements of a mapping empties its slots. -/
theorem hufSymbolMappingFreeElements_eq {m : HufSymbolMapping} (h : m.symbols.length = m.length) :
    hufSymbolMappingFreeElements m =
      .ok (.ok (), ⟨m.length, List.replicate m.length none⟩) := by
  obtain ⟨m', hrun, hlength, hlen, hfreed⟩ := Routine.forM_range_rule m.length
    (fun k m' => m'.length = m.length ∧ m'.symbols.length = m.length ∧
      ∀ i < k, m'.symbols[i]? = some none) (f := freeElement) (s := m)
    (by
      rintro k hk m' ⟨hlength, hlen, hfreed⟩
      have hlt : k < m'.symbols.length := hlen ▸ hk
      cases hslot : m'.symbols[k] with
      | none =>
          have hget : m'.symbols[k]? = some none := by rw [List.getElem?_eq_getElem hlt, hslot]
          refine ⟨m', ?_, hlength, hlen, fun i hi => ?_⟩
          · rw [freeElement, Routine.get_bind_apply, load_of_getElem? hget,
              Routine.demand_ok_bind_apply]
            rfl
          · rcases Nat.lt_succ_iff_lt_or_eq.mp hi with hi | rfl
            · exact hfreed i hi
            · exact hget
      | some element =>
          have hget : m'.symbols[k]? = some (some element) := by
            simp [List.getElem?_eq_getElem hlt, hslot]
          refine ⟨{ m' with symbols := m'.symbols.set k none }, ?_, hlength, ?_, fun i hi => ?_⟩
          · rw [freeElement, Routine.get_bind_apply, load_of_getElem? hget,
              Routine.demand_ok_bind_apply]
            show (Routine.get >>= _) m' = _
            rw [Routine.get_bind_apply, store_of_lt hlt, Routine.demand_ok_bind_apply,
              Routine.modify_apply]
          · exact (List.length_set ..).trans hlen
          · show (m'.symbols.set k none)[i]? = some none
            rcases Nat.lt_succ_iff_lt_or_eq.mp hi with hi | rfl
            · rw [List.getElem?_set_ne (by omega)]
              exact hfreed i hi
            · rw [List.getElem?_set_self hlt])
    ⟨rfl, h, fun i hi => absurd hi (Nat.not_lt_zero i)⟩
  rcases m' with ⟨length, symbols⟩
  obtain rfl : length = m.length := hlength
  have hsymbols : symbols = List.replicate m.length none := by
    refine List.eq_replicate_iff.mpr ⟨hlen, fun element helement => ?_⟩
    obtain ⟨i, hi, rfl⟩ := List.getElem_of_mem helement
    have hget := hfreed i (hlen ▸ hi)
    rw [List.getElem?_eq_getElem hi] at hget
    exact Option.some.inj hget
  rw [hsymbols] at hrun
  exact hrun

/-! ## Creation and release -/

/-- The configuration with the length in place of a blocksize of zero. -/
def wholeBlock (config : HufConfig ρ ω) : HufConfig ρ ω :=
  { config with blocksize := if config.blocksize = 0 then config.length else config.blocksize }

/-- An encoder that `huf_encoder_init` has created. -/
def newEncoder (config : HufConfig ρ ω) (reader : HufReadWriter ρ) (writer : HufReadWriter ω)
    (world : World ρ ω) : EncodeState ρ ω where
  config := wholeBlock config
  bitWriter := ⟨0, 0⟩
  tree := ⟨⟨noLeaves, none⟩, world.heap⟩
  mapping := emptyMapping
  histogram := emptyHistogram
  writer := ⟨newBufio writer config.writerBufferSize, world.output⟩
  reader := ⟨newBufio reader config.readerBufferSize, world.input⟩

theorem EncodeRun.config_get {self : HufEncoder ρ ω} {world : World ρ ω} (config : HufConfig ρ ω)
    (h : self.config = some config) :
    Routine.within EncodeRun.config Routine.get (some self, world) =
      (.ok (.ok config, (some self, world)) :
        Outcome Fault HufError (EncodeRun ρ ω) (HufConfig ρ ω)) := by
  rcases self with ⟨config', bitWriter, tree, mapping, histogram, writer, reader⟩
  obtain rfl : config' = some config := h
  rfl

theorem hufHistogramInit_eq :
    hufHistogramInit 1 hufHistogramLen ⟨none, []⟩ = .ok (.ok (), ⟨some emptyHistogram, []⟩) := by
  rw [hufHistogramInit, if_neg (by decide), if_neg (by decide)]
  rfl

theorem hufEncoderInit_eq {config : HufConfig ρ ω} {reader : HufReadWriter ρ}
    {writer : HufReadWriter ω} (hreader : config.reader = some reader)
    (hwriter : config.writer = some writer) {world : World ρ ω}
    (halloc : world.heap.allocations = []) :
    hufEncoderInit (some config) (none, world) =
      .ok (.ok (), (newEncoder config reader writer world).run) := by
  rw [hufEncoderInit, requireParam, Routine.pure_bind_apply,
    Routine.bind_of_ok (SelfRun.within_allocator halloc rfl), Routine.modify_bind_apply,
    Routine.bind_of_ok (SelfRun.within_creating (a := wholeBlock config) halloc rfl),
    Routine.bind_of_ok (SelfRun.within_creating (a := ⟨noLeaves, none⟩) halloc rfl),
    Routine.bind_of_ok (SelfRun.within_creating (a := emptyMapping) halloc rfl),
    Routine.bind_of_ok (SelfRun.within_creating (γ := HufEncoder ρ ω) halloc hufHistogramInit_eq)]
  rw [Routine.bind_of_ok (EncodeRun.config_get (wholeBlock config) rfl),
    show (wholeBlock config).writer = some writer from hwriter,
    Routine.bind_of_ok (SelfRun.within_creating (γ := HufEncoder ρ ω) halloc
      (hufBufioReadWriterInit_eq writer _)),
    Routine.bind_of_ok (EncodeRun.config_get (wholeBlock config) rfl),
    show (wholeBlock config).reader = some reader from hreader,
    SelfRun.within_creating (γ := HufEncoder ρ ω) halloc (hufBufioReadWriterInit_eq reader _)]
  rfl

/-- The release of an encoder that has all its pointers is the release of its tree. -/
theorem hufEncoderFree_of_tree {e : EncodeState ρ ω} {heap : Heap}
    (h : hufTreeFree (some e.tree.tree, e.tree.heap) = .ok (.ok (), (none, heap)))
    (hmapping : e.mapping.symbols.length = e.mapping.length) :
    hufEncoderFree e.run = .ok (.ok (), (none, ⟨e.reader.stream, e.writer.stream, heap⟩)) := by
  have htreeFree : Routine.within
      (SelfRun.releasingTree (·.huffmanTree) fun t self => { self with huffmanTree := t })
      hufTreeFree e.run = .ok (.ok (),
      (some ⟨some e.config, e.bitWriter, none, some e.mapping, some e.histogram,
        some e.writer.bufio, some e.reader.bufio⟩, ⟨e.reader.stream, e.writer.stream, heap⟩)) :=
    Routine.within_of_ok rfl h
  have hmappingFree : hufSymbolMappingFree (some e.mapping) = .ok (.ok (), none) := by
    rw [hufSymbolMappingFree, Routine.get_bind_apply, requireParam, Routine.pure_bind_apply,
      Routine.bind_of_ok (Routine.within_of_ok (s := e.mapping) rfl
        (hufSymbolMappingFreeElements_eq hmapping))]
    rfl
  rw [hufEncoderFree, Routine.bind_of_ok htreeFree]
  show ((Routine.within (SelfRun.releasing (·.mapping) fun m self => { self with mapping := m })
    hufSymbolMappingFree >>= fun _ => _) : CRoutine (EncodeRun ρ ω) Unit)
      (some ⟨some e.config, e.bitWriter, none, some e.mapping, none, none, none⟩,
        ⟨e.reader.stream, e.writer.stream, heap⟩) = _
  rw [Routine.bind_of_ok (Routine.within_of_ok rfl hmappingFree)]
  rfl

/-- An encoder can be released in any state, whatever is left of its tree and its
mapping. -/
theorem hufEncoderFree_eq {e : EncodeState ρ ω} {tree : BinaryTree Int16}
    (htree : e.tree.heap.Holds e.tree.tree.root tree)
    (hmapping : e.mapping.symbols.length = e.mapping.length) :
    ∃ heap, hufEncoderFree e.run =
        .ok (.ok (), (none, ⟨e.reader.stream, e.writer.stream, heap⟩)) ∧
      heap.allocations = e.tree.heap.allocations := by
  obtain ⟨heap, hrun, halloc⟩ := hufTreeFree_eq htree
  exact ⟨heap, hufEncoderFree_of_tree hrun hmapping, halloc⟩

end LibHuffman
