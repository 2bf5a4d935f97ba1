/-
# The state of a running decoder

Between `huf_decoder_init` and `huf_decoder_free` no pointer of a decoder is null.
A `DecodeState` is such a decoder together with the streams and the heap, and
`DecodeState.run` is where the routines find it. What a routine does to one object
of the decoder it does to one field of this record.
-/

import LibHuffman.Model.Decoder
import LibHuffman.Streams.Reader
import LibHuffman.Streams.Writer
import LibHuffman.Trees.Release

namespace LibHuffman

open Foundation

variable {ρ ω : Type}

/-- A decoder whose pointers are all set, and the objects of its caller. -/
structure DecodeState (ρ ω : Type) where
  config : HufConfig ρ ω
  tree : TreeStore
  lastNode : Option ℕ
  writer : Buffered ω
  reader : Buffered ρ

namespace DecodeState

/-- The state as the routines of the decoder see it. -/
def run (d : DecodeState ρ ω) : DecodeRun ρ ω :=
  (some ⟨some d.config, some d.tree.tree, d.lastNode, some d.writer.bufio, some d.reader.bufio⟩,
    ⟨d.reader.stream, d.writer.stream, d.tree.heap⟩)

section

variable {α : Type} {d : DecodeState ρ ω}

theorem within_tree {x : CRoutine TreeStore α} {r : Except HufError α} {tree : TreeStore}
    (h : x d.tree = .ok (r, tree)) :
    Routine.within DecodeRun.huffmanTree x d.run = .ok (r, { d with tree }.run) :=
  Routine.within_of_ok rfl h

theorem within_reader {x : CRoutine (Buffered ρ) α} {r : Except HufError α} {reader : Buffered ρ}
    (h : x d.reader = .ok (r, reader)) :
    Routine.within DecodeRun.bufioReader x d.run = .ok (r, { d with reader }.run) :=
  Routine.within_of_ok rfl h

theorem within_writer {x : CRoutine (Buffered ω) α} {r : Except HufError α} {writer : Buffered ω}
    (h : x d.writer = .ok (r, writer)) :
    Routine.within DecodeRun.bufioWriter x d.run = .ok (r, { d with writer }.run) :=
  Routine.within_of_ok rfl h

/-! What the routines read of a decoder before they go on. -/

theorem self_get_bind (d : DecodeState ρ ω) (f : HufDecoder ρ ω → CRoutine (DecodeRun ρ ω) α) :
    (Routine.within DecodeRun.self Routine.get >>= f) d.run =
      f ⟨some d.config, some d.tree.tree, d.lastNode, some d.writer.bufio, some d.reader.bufio⟩
        d.run := rfl

theorem config_get_bind (d : DecodeState ρ ω) (f : HufConfig ρ ω → CRoutine (DecodeRun ρ ω) α) :
    (Routine.within DecodeRun.config Routine.get >>= f) d.run = f d.config d.run := rfl

theorem tree_get_bind (d : DecodeState ρ ω) (f : TreeStore → CRoutine (DecodeRun ρ ω) α) :
    (Routine.within DecodeRun.huffmanTree Routine.get >>= f) d.run = f d.tree d.run := rfl

theorem reader_get_bind (d : DecodeState ρ ω) (f : Buffered ρ → CRoutine (DecodeRun ρ ω) α) :
    (Routine.within DecodeRun.bufioReader Routine.get >>= f) d.run = f d.reader d.run := rfl

theorem setLastNode (d : DecodeState ρ ω) (lastNode : Option ℕ) :
    Routine.within DecodeRun.self (Routine.modify fun self => { self with lastNode }) d.run =
      (.ok (.ok (), { d with lastNode }.run) : Outcome Fault HufError (DecodeRun ρ ω) Unit) :=
  rfl

end

end DecodeState

/-! ## Creation and release -/

/-- A decoder that `huf_decoder_init` has created. -/
def newDecoder (config : HufConfig ρ ω) (reader : HufReadWriter ρ) (writer : HufReadWriter ω)
    (world : World ρ ω) : DecodeState ρ ω where
  config := config
  tree := ⟨⟨noLeaves, none⟩, world.heap⟩
  lastNode := none
  writer := ⟨newBufio writer config.writerBufferSize, world.output⟩
  reader := ⟨newBufio reader config.readerBufferSize, world.input⟩

theorem DecodeRun.config_get {self : HufDecoder ρ ω} {world : World ρ ω} {config : HufConfig ρ ω}
    (h : self.config = some config) :
    Routine.within DecodeRun.config Routine.get (some self, world) =
      (.ok (.ok config, (some self, world)) :
        Outcome Fault HufError (DecodeRun ρ ω) (HufConfig ρ ω)) := by
  rcases self with ⟨config', tree, lastNode, writer, reader⟩
  obtain rfl : config' = some config := h
  rfl

theorem hufDecoderInit_eq {config : HufConfig ρ ω} {reader : HufReadWriter ρ}
    {writer : HufReadWriter ω} (hreader : config.reader = some reader)
    (hwriter : config.writer = some writer) {world : World ρ ω}
    (halloc : world.heap.allocations = []) :
    hufDecoderInit (some config) (none, world) =
      .ok (.ok (), (newDecoder config reader writer world).run) := by
  rw [hufDecoderInit, requireParam, Routine.pure_bind_apply,
    Routine.bind_of_ok (SelfRun.within_allocator halloc rfl), Routine.modify_bind_apply,
    Routine.bind_of_ok (SelfRun.within_creating (a := config) halloc rfl),
    Routine.bind_of_ok (SelfRun.within_creating (a := ⟨noLeaves, none⟩) halloc rfl)]
  rw [Routine.bind_of_ok (DecodeRun.config_get rfl), hwriter,
    Routine.bind_of_ok (SelfRun.within_creating (γ := HufDecoder ρ ω) halloc
      (hufBufioReadWriterInit_eq writer _)),
    Routine.bind_of_ok (DecodeRun.config_get rfl), hreader,
    SelfRun.within_creating (γ := HufDecoder ρ ω) halloc (hufBufioReadWriterInit_eq reader _)]
  rfl

/-- The release of a decoder that has all its pointers is the release of its tree. -/
theorem hufDecoderFree_of_tree {d : DecodeState ρ ω} {heap : Heap}
    (h : hufTreeFree (some d.tree.tree, d.tree.heap) = .ok (.ok (), (none, heap))) :
    hufDecoderFree d.run = .ok (.ok (), (none, ⟨d.reader.stream, d.writer.stream, heap⟩)) := by
  have hfree : Routine.within
      (SelfRun.releasingTree (·.huffmanTree) fun t self => { self with huffmanTree := t })
      hufTreeFree d.run = .ok (.ok (),
      (some ⟨some d.config, none, d.lastNode, some d.writer.bufio, some d.reader.bufio⟩,
        ⟨d.reader.stream, d.writer.stream, heap⟩)) := Routine.within_of_ok rfl h
  rw [hufDecoderFree, Routine.bind_of_ok hfree]
  rfl

/-- A decoder can be released in any state, whatever is left of its tree. -/
theorem hufDecoderFree_eq {d : DecodeState ρ ω} {tree : BinaryTree Int16}
    (htree : d.tree.heap.Holds d.tree.tree.root tree) :
    ∃ heap, hufDecoderFree d.run =
        .ok (.ok (), (none, ⟨d.reader.stream, d.writer.stream, heap⟩)) ∧
      heap.allocations = d.tree.heap.allocations := by
  obtain ⟨heap, hrun, halloc⟩ := hufTreeFree_eq htree
  exact ⟨heap, hufDecoderFree_of_tree hrun, halloc⟩

end LibHuffman
