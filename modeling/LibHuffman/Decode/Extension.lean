/-
# Two inputs with a common beginning

A decoder whose input ends early follows the decoder of a longer input, step by
step, until it asks for a byte that is not there. What the two have in common is
everything but the readers; the readers are ahead of the same bytes, and the second
one of more.
-/

import LibHuffman.Decode.Stream
import LibHuffman.Foundation.Follows

namespace LibHuffman

open Foundation

variable {ρ₁ ρ₂ ω : Type}

/-- Two readers ahead of the same bytes, of which the second goes on. -/
structure Ahead (src₁ : Source ρ₁) (src₂ : Source ρ₂) (b₁ : Buffered ρ₁) (b₂ : Buffered ρ₂) :
    Prop where
  reading : ∃ rest more, Reading src₁ b₁ rest ∧ Reading src₂ b₂ (rest ++ more)
  counter : b₂.bufio.haveBeenProcessed = b₁.bufio.haveBeenProcessed

/-- The second decoder differs from the first one in its reader, which goes on where
the first one ends. -/
structure Extends (src₁ : Source ρ₁) (src₂ : Source ρ₂) (d₁ : DecodeState ρ₁ ω)
    (d₂ : DecodeState ρ₂ ω) : Prop where
  length : d₂.config.length = d₁.config.length
  blocksize : d₂.config.blocksize = d₁.config.blocksize
  tree : d₂.tree = d₁.tree
  lastNode : d₂.lastNode = d₁.lastNode
  writer : d₂.writer = d₁.writer
  reader : Ahead src₁ src₂ d₁.reader d₂.reader

/-- The same of the decoders that two runs work on. -/
def ExtendsRun (src₁ : Source ρ₁) (src₂ : Source ρ₂) (s : DecodeRun ρ₁ ω) (t : DecodeRun ρ₂ ω) :
    Prop :=
  ∃ d₁ d₂, s = d₁.run ∧ t = d₂.run ∧ Extends src₁ src₂ d₁ d₂

/-- The input ended. -/
def Starved {σ : Type} (code : HufError) (_ : σ) : Prop := code = .readWrite

/-- A routine of the first decoder follows one of the second, up to the end of its
input. -/
abbrev FollowsInput (src₁ : Source ρ₁) (src₂ : Source ρ₂) {α : Type}
    (Q : α → DecodeRun ρ₁ ω → DecodeRun ρ₂ ω → Prop) :
    Outcome Fault HufError (DecodeRun ρ₁ ω) α → Outcome Fault HufError (DecodeRun ρ₂ ω) α → Prop :=
  Follows Starved (fun _ => ExtendsRun src₁ src₂) Q

/-! ## The readers -/

section

variable {src₁ : Source ρ₁} {src₂ : Source ρ₂} {b₁ : Buffered ρ₁} {b₂ : Buffered ρ₂}

/-- A request returns the same to both, unless the first one has come to its end. -/
theorem Ahead.read (h : Ahead src₁ src₂ b₁ b₂) (buf : List UInt8) :
    Follows Starved (fun _ => Ahead src₁ src₂) (fun _ => Ahead src₁ src₂) (hufBufioRead buf b₁)
      (hufBufioRead buf b₂) := by
  rcases h with ⟨⟨rest, more, h₁, h₂⟩, hcounter⟩
  by_cases hlen : buf.length ≤ rest.length
  · obtain ⟨b₁', hread₁, h₁', hcount₁⟩ := hufBufioRead_ok h₁ buf hlen
    obtain ⟨b₂', hread₂, h₂', hcount₂⟩ := hufBufioRead_ok h₂ buf (by
      rw [List.length_append]
      omega)
    rw [List.take_append_of_le_length hlen] at hread₂
    rw [List.drop_append_of_le_length hlen] at h₂'
    rw [hread₁, hread₂]
    exact .value ⟨⟨_, more, h₁', h₂'⟩, by rw [hcount₁, hcount₂, hcounter]⟩
  · obtain ⟨b₁', hread₁, -⟩ := hufBufioRead_error h₁ buf (Nat.lt_of_not_le hlen)
    rw [hread₁]
    exact .stop rfl

theorem Ahead.readUint8 (h : Ahead src₁ src₂ b₁ b₂) (byte : UInt8) :
    Follows Starved (fun _ => Ahead src₁ src₂) (fun _ => Ahead src₁ src₂)
      (hufBufioReadUint8 byte b₁) (hufBufioReadUint8 byte b₂) := by
  apply Follows.bind (h.read [byte])
  intro buf b₁' b₂' h'
  exact .demand _ fun _ _ => h'

end

/-! ## One object of the decoders -/

section

variable {src₁ : Source ρ₁} {src₂ : Source ρ₂} {d₁ : DecodeState ρ₁ ω} {d₂ : DecodeState ρ₂ ω}
  {α : Type}

theorem Extends.run (h : Extends src₁ src₂ d₁ d₂) : ExtendsRun src₁ src₂ d₁.run d₂.run :=
  ⟨d₁, d₂, rfl, rfl, h⟩

/-- A routine on the readers. -/
theorem Extends.within_reader (h : Extends src₁ src₂ d₁ d₂) {x : CRoutine (Buffered ρ₁) α}
    {y : CRoutine (Buffered ρ₂) α}
    (hread : ∀ b₁ b₂, Ahead src₁ src₂ b₁ b₂ →
      Follows Starved (fun _ => Ahead src₁ src₂) (fun _ => Ahead src₁ src₂) (x b₁) (y b₂)) :
    FollowsInput src₁ src₂ (fun _ => ExtendsRun src₁ src₂)
      (Routine.within DecodeRun.bufioReader x d₁.run)
      (Routine.within DecodeRun.bufioReader y d₂.run) := by
  have hstore : ∀ b₁ b₂, Ahead src₁ src₂ b₁ b₂ →
      ExtendsRun src₁ src₂ (DecodeRun.bufioReader.store b₁ d₁.run)
        (DecodeRun.bufioReader.store b₂ d₂.run) := fun b₁ b₂ hahead =>
    ⟨{ d₁ with reader := b₁ }, { d₂ with reader := b₂ }, rfl, rfl, h.length, h.blocksize, h.tree,
      h.lastNode, h.writer, hahead⟩
  exact Follows.within (s := d₁.reader) (t := d₂.reader) rfl rfl
    (hread _ _ h.reader) (fun _ _ hs => hs) (fun _ => hstore) fun _ => hstore

/-- A routine on the writers, which are the same. -/
theorem Extends.within_writer (h : Extends src₁ src₂ d₁ d₂) (x : CRoutine (Buffered ω) α) :
    FollowsInput src₁ src₂ (fun _ => ExtendsRun src₁ src₂)
      (Routine.within DecodeRun.bufioWriter x d₁.run)
      (Routine.within DecodeRun.bufioWriter x d₂.run) := by
  have hload : DecodeRun.bufioWriter.load d₂.run = .ok d₁.writer := congrArg Except.ok h.writer
  have hstore : ∀ b, ExtendsRun src₁ src₂ (DecodeRun.bufioWriter.store b d₁.run)
      (DecodeRun.bufioWriter.store b d₂.run) := fun b =>
    ⟨{ d₁ with writer := b }, { d₂ with writer := b }, rfl, rfl, h.length, h.blocksize, h.tree,
      h.lastNode, rfl, h.reader⟩
  exact .within_same rfl hload (fun _ b _ => hstore b) fun _ b _ => hstore b

/-- A routine on the trees, which are the same. -/
theorem Extends.within_tree (h : Extends src₁ src₂ d₁ d₂) (x : CRoutine TreeStore α) :
    FollowsInput src₁ src₂ (fun _ => ExtendsRun src₁ src₂)
      (Routine.within DecodeRun.huffmanTree x d₁.run)
      (Routine.within DecodeRun.huffmanTree x d₂.run) := by
  have hload : DecodeRun.huffmanTree.load d₂.run = .ok d₁.tree := congrArg Except.ok h.tree
  have hstore : ∀ tree, ExtendsRun src₁ src₂ (DecodeRun.huffmanTree.store tree d₁.run)
      (DecodeRun.huffmanTree.store tree d₂.run) := fun tree =>
    ⟨{ d₁ with tree }, { d₂ with tree }, rfl, rfl, h.length, h.blocksize, rfl, h.lastNode,
      h.writer, h.reader⟩
  exact .within_same rfl hload (fun _ tree _ => hstore tree) fun _ tree _ => hstore tree

theorem Extends.malloc (h : Extends src₁ src₂ d₁ d₂) :
    FollowsInput src₁ src₂ (fun _ => ExtendsRun src₁ src₂)
      (Routine.within SelfRun.allocator hufMalloc d₁.run)
      (Routine.within SelfRun.allocator hufMalloc d₂.run) := by
  have hload : SelfRun.allocator.load d₂.run = .ok d₁.tree.heap.allocations :=
    congrArg (fun tree : TreeStore => Except.ok tree.heap.allocations) h.tree
  have hstore : ∀ allocations, ExtendsRun src₁ src₂
      (SelfRun.allocator.store allocations d₁.run)
      (SelfRun.allocator.store allocations d₂.run) := fun allocations =>
    ⟨{ d₁ with tree := ⟨d₁.tree.tree, { d₁.tree.heap with allocations }⟩ },
      { d₂ with tree := ⟨d₂.tree.tree, { d₂.tree.heap with allocations }⟩ }, rfl, rfl, h.length,
      h.blocksize, by rw [h.tree], h.lastNode, h.writer, h.reader⟩
  exact .within_same rfl hload (fun _ list _ => hstore list) fun _ list _ => hstore list

theorem Extends.setLastNode (h : Extends src₁ src₂ d₁ d₂) (lastNode : Option ℕ) :
    Extends src₁ src₂ { d₁ with lastNode } { d₂ with lastNode } :=
  ⟨h.length, h.blocksize, h.tree, rfl, h.writer, h.reader⟩

end

/-! ## The routines of the decoder -/

section

variable {src₁ : Source ρ₁} {src₂ : Source ρ₂} {d₁ : DecodeState ρ₁ ω} {d₂ : DecodeState ρ₂ ω}

theorem Extends.deref_eq (h : Extends src₁ src₂ d₁ d₂) (pointer : Option ℕ) :
    d₂.run.2.heap.deref pointer = d₁.run.2.heap.deref pointer :=
  congrArg (fun tree : TreeStore => tree.heap.deref pointer) h.tree

/-- One bit. -/
theorem Extends.decodeBit (h : Extends src₁ src₂ d₁ d₂) (bit : Bool) :
    FollowsInput src₁ src₂ (fun _ => ExtendsRun src₁ src₂) (decodeBit bit d₁.run)
      (decodeBit bit d₂.run) := by
  rw [LibHuffman.decodeBit, LibHuffman.decodeBit, Routine.get_bind_apply, Routine.get_bind_apply,
    DecodeState.self_get_bind, DecodeState.self_get_bind, h.deref_eq, h.lastNode]
  apply Follows.demand_bind
  intro node
  dsimp only
  set lastNode := if bit then node.right else node.left
  have h' := h.setLastNode lastNode
  rw [Routine.bind_of_ok (DecodeState.setLastNode d₁ _),
    Routine.bind_of_ok (DecodeState.setLastNode d₂ _)]
  split
  · exact .error h'.run
  · rw [Routine.get_bind_apply, Routine.get_bind_apply, h'.deref_eq]
    apply Follows.demand_bind
    intro next
    split
    · exact .value h'.run
    · apply Follows.bind (h'.within_writer _)
      intro _ s t hrun
      rcases hrun with ⟨e₁, e₂, rfl, rfl, he⟩
      rw [DecodeState.tree_get_bind, DecodeState.tree_get_bind, he.tree,
        Routine.bind_of_ok (DecodeState.setLastNode e₁ _),
        Routine.bind_of_ok (DecodeState.setLastNode e₂ _)]
      exact .value (he.setLastNode _).run

/-- The bits of a byte. -/
theorem Extends.decodeBits (h : Extends src₁ src₂ d₁ d₂) (byte : UInt8) (len n restored : ℕ) :
    FollowsInput src₁ src₂ (fun _ => ExtendsRun src₁ src₂) (decodeBits byte len n restored d₁.run)
      (decodeBits byte len n restored d₂.run) := by
  induction n generalizing d₁ d₂ restored with
  | zero => exact .value h.run
  | succ n ih =>
      rw [LibHuffman.decodeBits, LibHuffman.decodeBits]
      apply Follows.bind (h.decodeBit _)
      intro found s t hrun
      rcases hrun with ⟨e₁, e₂, rfl, rfl, he⟩
      split
      · split
        · exact .value he.run
        · exact ih he _
      · exact ih he _

/-- A block. -/
theorem Extends.decodeBlock (h : Extends src₁ src₂ d₁ d₂) (len : ℕ) :
    FollowsInput src₁ src₂ (fun _ => ExtendsRun src₁ src₂) (hufDecodeBlock len d₁.run)
      (hufDecodeBlock len d₂.run) := by
  rw [hufDecodeBlock, hufDecodeBlock, DecodeState.self_get_bind, DecodeState.self_get_bind,
    h.lastNode]
  dsimp only
  have hloop : ∀ (s : DecodeRun ρ₁ ω) (t : DecodeRun ρ₂ ω), ExtendsRun src₁ src₂ s t →
      ∀ fuel, FollowsInput src₁ src₂ (fun _ => ExtendsRun src₁ src₂)
        (payloadLoop len fuel (0, 0) s) (payloadLoop len fuel (0, 0) t) := by
    intro s t hrun fuel
    refine Follows.whileLoop (fun _ => ExtendsRun src₁ src₂) (fun _ => ExtendsRun src₁ src₂)
      ?_ ?_ fuel hrun
    · intro locals s t hrun
      apply Follows.pure
      split <;> exact hrun
    · intro locals s t hrun
      rcases hrun with ⟨e₁, e₂, rfl, rfl, he⟩
      apply Follows.bind (he.within_reader fun b₁ b₂ hb => hb.readUint8 _)
      intro byte s t hrun
      rcases hrun with ⟨e₁, e₂, rfl, rfl, he⟩
      apply Follows.bind (he.decodeBits _ _ _ _)
      intro restored s t hrun
      exact .value hrun
  split
  · rw [DecodeState.tree_get_bind, DecodeState.tree_get_bind, h.tree,
      Routine.bind_of_ok (DecodeState.setLastNode d₁ _),
      Routine.bind_of_ok (DecodeState.setLastNode d₂ _)]
    exact Follows.bind (hloop _ _ (h.setLastNode _).run _) fun _ _ _ hrun => .value hrun
  · exact Follows.bind (hloop _ _ h.run _) fun _ _ _ hrun => .value hrun

/-- An iteration of the loop over the blocks. -/
theorem Extends.decodeNextBlock (h : Extends src₁ src₂ d₁ d₂) (treeLength : Int16) :
    FollowsInput src₁ src₂ (fun _ => ExtendsRun src₁ src₂) (decodeNextBlock treeLength d₁.run)
      (decodeNextBlock treeLength d₂.run) := by
  rw [LibHuffman.decodeNextBlock, LibHuffman.decodeNextBlock, DecodeState.config_get_bind,
    DecodeState.config_get_bind, h.blocksize]
  apply Follows.bind (h.within_reader fun b₁ b₂ hb => hb.read _)
  intro buf s t hrun
  rcases hrun with ⟨d₁, d₂, rfl, rfl, h⟩
  have hset : ∀ {ρ : Type} (d : DecodeState ρ ω), Routine.within DecodeRun.config
      (Routine.modify fun config => { config with blocksize := leNat buf }) d.run =
      (.ok (.ok (), { d with config := { d.config with blocksize := leNat buf } }.run) :
        Outcome Fault HufError (DecodeRun ρ ω) Unit) := fun _ => rfl
  rw [Routine.bind_of_ok (hset d₁), Routine.bind_of_ok (hset d₂)]
  have h : Extends src₁ src₂ { d₁ with config := { d₁.config with blocksize := leNat buf } }
      { d₂ with config := { d₂.config with blocksize := leNat buf } } :=
    ⟨h.length, rfl, h.tree, h.lastNode, h.writer, h.reader⟩
  apply Follows.bind (h.within_reader fun b₁ b₂ hb => hb.read _)
  intro buf s t hrun
  dsimp only
  rcases hrun with ⟨d₁, d₂, rfl, rfl, h⟩
  split
  · exact .error h.run
  apply Follows.bind h.malloc
  intro _ s t hrun
  rcases hrun with ⟨d₁, d₂, rfl, rfl, h⟩
  apply Follows.bind (h.within_reader fun b₁ b₂ hb => hb.read _)
  intro treeHead s t hrun
  rcases hrun with ⟨d₁, d₂, rfl, rfl, h⟩
  apply Follows.bind (h.within_tree _)
  intro _ s t hrun
  rcases hrun with ⟨d₁, d₂, rfl, rfl, h⟩
  rw [DecodeState.config_get_bind, DecodeState.config_get_bind, h.blocksize]
  apply Follows.bind (h.decodeBlock _)
  intro _ s t hrun
  rcases hrun with ⟨d₁, d₂, rfl, rfl, h⟩
  apply Follows.bind (h.within_tree _)
  intro _ s t hrun
  rcases hrun with ⟨d₁, d₂, rfl, rfl, h⟩
  rw [Routine.bind_of_ok (DecodeState.setLastNode d₁ _),
    Routine.bind_of_ok (DecodeState.setLastNode d₂ _)]
  exact .value (h.setLastNode none).run

/-- All blocks, and the flush behind them. -/
theorem Extends.decodeBlocks (h : Extends src₁ src₂ d₁ d₂) :
    FollowsInput src₁ src₂ (fun _ => ExtendsRun src₁ src₂) (decodeBlocks d₁.run)
      (decodeBlocks d₂.run) := by
  rw [LibHuffman.decodeBlocks, LibHuffman.decodeBlocks, DecodeState.config_get_bind,
    DecodeState.config_get_bind, h.length]
  refine Follows.bind (Follows.whileLoop (fun _ => ExtendsRun src₁ src₂)
    (fun _ => ExtendsRun src₁ src₂) (Q := fun _ => ExtendsRun src₁ src₂) ?_ ?_ _ h.run) ?_
  · intro _ s t hrun
    rcases hrun with ⟨e₁, e₂, rfl, rfl, he⟩
    rw [DecodeState.config_get_bind, DecodeState.config_get_bind, DecodeState.reader_get_bind,
      DecodeState.reader_get_bind, he.length, he.reader.counter]
    apply Follows.pure
    split <;> exact he.run
  · intro treeLength s t hrun
    rcases hrun with ⟨e₁, e₂, rfl, rfl, he⟩
    exact Follows.bind (he.decodeNextBlock treeLength) fun _ _ _ hrun => .value hrun
  · intro _ s t hrun
    rcases hrun with ⟨e₁, e₂, rfl, rfl, he⟩
    exact he.within_writer _

/-- The release, whatever is left of the tree. -/
theorem Extends.decoderFree (h : Extends src₁ src₂ d₁ d₂) :
    Follows (fun _ _ => False) (fun _ s t => t.2.output = s.2.output)
      (fun _ s t => t.2.output = s.2.output) (hufDecoderFree d₁.run) (hufDecoderFree d₂.run) := by
  have houtput : d₂.writer.stream = d₁.writer.stream := congrArg Buffered.stream h.writer
  have hsame : hufTreeFree (some d₂.tree.tree, d₂.tree.heap) =
      hufTreeFree (some d₁.tree.tree, d₁.tree.heap) := by rw [h.tree]
  rw [hufDecoderFree, hufDecoderFree]
  cases hfree : hufTreeFree (some d₁.tree.tree, d₁.tree.heap) with
  | error fault =>
      rw [Routine.bind_of_fault (Routine.within_of_fault rfl hfree),
        Routine.bind_of_fault (Routine.within_of_fault rfl (hsame.trans hfree))]
      exact .fault fault
  | ok ends =>
      rcases ends with ⟨r, t⟩
      cases r with
      | error code =>
          rw [Routine.bind_of_error (Routine.within_of_ok rfl hfree),
            Routine.bind_of_error (Routine.within_of_ok rfl (hsame.trans hfree))]
          exact .error houtput
      | ok a =>
          rw [Routine.bind_of_ok (Routine.within_of_ok rfl hfree),
            Routine.bind_of_ok (Routine.within_of_ok rfl (hsame.trans hfree))]
          exact .value houtput

end

/-! ## Whole runs -/

/-- A run that ends with a value, or with a code other than the one for the end of
the input, ends in the same way on every longer input. -/
theorem hufDecode_extends (src₁ : Source ρ₁) (src₂ : Source ρ₂) {writer : HufReadWriter ω}
    {length blocksize size₁ size₂ writerBufferSize : ℕ} {input₁ : ρ₁} {input₂ : ρ₂} {output : ω}
    {heap : Heap} (halloc : heap.allocations = []) (hvalid₁ : src₁.valid input₁)
    (hvalid₂ : src₂.valid input₂) (hpre : src₁.remaining input₁ <+: src₂.remaining input₂)
    {result : Except HufError Unit} {world : World ρ₁ ω}
    (hrun : hufDecode (some ⟨length, blocksize, size₁, writerBufferSize, some src₁.readWriter,
      some writer⟩) ⟨input₁, output, heap⟩ = .ok (result, world))
    (hresult : result ≠ .error .readWrite) :
    ∃ world', hufDecode (some ⟨length, blocksize, size₂, writerBufferSize, some src₂.readWriter,
        some writer⟩) ⟨input₂, output, heap⟩ = .ok (result, world') ∧
      world'.output = world.output := by
  rcases hpre with ⟨more, hmore⟩
  rw [hufDecode] at hrun
  rcases Routine.withLocal_eq_ok hrun with ⟨last, hrun⟩
  rcases Routine.ensuring_eq_ok hrun with ⟨s, q, hbody, hfree⟩
  have hreading₂ := reading_newBufio src₂ size₂ hvalid₂
  rw [← hmore] at hreading₂
  have hextends : Extends src₁ src₂
      (newDecoder ⟨length, blocksize, size₁, writerBufferSize, some src₁.readWriter, some writer⟩
        src₁.readWriter writer ⟨input₁, output, heap⟩)
      (newDecoder ⟨length, blocksize, size₂, writerBufferSize, some src₂.readWriter, some writer⟩
        src₂.readWriter writer ⟨input₂, output, heap⟩) :=
    ⟨rfl, rfl, rfl, rfl, rfl, ⟨_, more, reading_newBufio src₁ size₁ hvalid₁, hreading₂⟩, rfl⟩
  have hinit₁ : hufDecoderInit (some ⟨length, blocksize, size₁, writerBufferSize,
      some src₁.readWriter, some writer⟩) (none, ⟨input₁, output, heap⟩) = _ :=
    hufDecoderInit_eq rfl rfl halloc
  have hinit₂ : hufDecoderInit (some ⟨length, blocksize, size₂, writerBufferSize,
      some src₂.readWriter, some writer⟩) (none, ⟨input₂, output, heap⟩) = _ :=
    hufDecoderInit_eq rfl rfl halloc
  rw [Routine.bind_of_ok hinit₁] at hbody
  have hfollows := hextends.decodeBlocks
  rw [hbody] at hfollows
  -- the body of the second run ends as that of the first one
  obtain ⟨t, hbody₂, d₁, d₂, rfl, rfl, h⟩ :
      ∃ t, decodeBlocks _ = .ok (result, t) ∧ ExtendsRun src₁ src₂ s t := by
    cases result with
    | error code => exact hfollows.error_right fun hstarved => hresult (congrArg _ hstarved)
    | ok value => exact hfollows.value_right
  have hreleased := h.decoderFree
  rw [hfree] at hreleased
  obtain ⟨t, hfree₂, houtput⟩ :
      ∃ t, hufDecoderFree d₂.run = .ok (q, t) ∧ t.2.output = world.output := by
    cases q with
    | error code => exact hreleased.error_right id
    | ok value => exact hreleased.value_right
  refine ⟨t.2, Routine.withLocal_of_ok (Routine.ensuring_of_ok ?_ hfree₂), houtput⟩
  exact (Routine.bind_of_ok hinit₂).trans hbody₂

end LibHuffman
