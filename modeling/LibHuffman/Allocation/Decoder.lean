/-
# The decoder under failing allocations

Once `huf_decoder_init` has set every pointer of a decoder, a run follows the one
without failures, and leaves a tree that can be released wherever an allocation
fails.
-/

import LibHuffman.Allocation.Trees
import LibHuffman.Decode.State

namespace LibHuffman

open Foundation Allocating

variable {ρ ω : Type}

/-! ## The objects of a decoder -/

namespace DecodeRun

theorem carries_huffmanTree : Carries (huffmanTree : Place Fault (DecodeRun ρ ω) TreeStore) where
  load s := by
    rcases s with ⟨_ | ⟨config, _ | tree, lastNode, writer, reader⟩, world⟩ <;> rfl
  load_allocations s t h := by
    rcases s with ⟨_ | ⟨config, _ | tree, lastNode, writer, reader⟩, world⟩ <;> cases h
    rfl
  store _ _ := rfl
  store_allocations _ _ := rfl

theorem separate_self : Separate (self : Place Fault (DecodeRun ρ ω) (HufDecoder ρ ω)) where
  load _ := rfl
  store _ _ := rfl
  store_allocations _ _ := rfl
  store_load s b h := by
    rcases s with ⟨_ | self, world⟩ <;> cases h
    rfl

theorem separate_config : Separate (config : Place Fault (DecodeRun ρ ω) (HufConfig ρ ω)) where
  load _ := rfl
  store _ _ := rfl
  store_allocations _ _ := rfl
  store_load s b h := by
    rcases s with ⟨_ | ⟨_ | config, tree, lastNode, writer, reader⟩, world⟩ <;> cases h
    rfl

theorem separate_bufioReader :
    Separate (bufioReader : Place Fault (DecodeRun ρ ω) (Buffered ρ)) where
  load _ := rfl
  store _ _ := rfl
  store_allocations _ _ := rfl
  store_load s b h := by
    rcases s with ⟨_ | ⟨config, tree, lastNode, writer, _ | reader⟩, world⟩ <;> cases h
    rfl

theorem separate_bufioWriter :
    Separate (bufioWriter : Place Fault (DecodeRun ρ ω) (Buffered ω)) where
  load _ := rfl
  store _ _ := rfl
  store_allocations _ _ := rfl
  store_load s b h := by
    rcases s with ⟨_ | ⟨config, tree, lastNode, _ | writer, reader⟩, world⟩ <;> cases h
    rfl

end DecodeRun

/-! ## Runs that keep the tree -/

/-- All pointers of the decoder are set, and its tree has a property. -/
def DecodeRun.OnTree (P : TreeStore → Prop) (s : DecodeRun ρ ω) : Prop :=
  ∃ d : DecodeState ρ ω, s = d.run ∧ P d.tree

namespace DecodeRun

section

variable {P Q : TreeStore → Prop} {α β : Type}

/-- A routine that does nothing to the tree. -/
theorem separate_endures {place : Place Fault (DecodeRun ρ ω) β} (hplace : Separate place)
    (hstore : ∀ (d : DecodeState ρ ω) b,
      ∃ d' : DecodeState ρ ω, place.store b d.run = d'.run ∧ d'.tree = d.tree)
    (x : CRoutine β α) :
    Endures (OnTree P) (OnTree P) (Routine.within place x) fun _ => OnTree P := by
  have hkeeps : ∀ s b, OnTree P s → OnTree P (place.store b s) := by
    rintro _ b ⟨d, rfl, hd⟩
    rcases hstore d b with ⟨d', hrun, htree⟩
    exact ⟨d', hrun, htree ▸ hd⟩
  exact Endures.separate hplace (fun s _ _ b hs _ _ => hkeeps s b hs)
    fun s _ _ b hs _ _ => hkeeps s b hs

theorem reader_endures (x : CRoutine (Buffered ρ) α) :
    Endures (OnTree P) (OnTree P) (Routine.within (bufioReader (ω := ω)) x) fun _ => OnTree P :=
  separate_endures separate_bufioReader (fun d b => ⟨{ d with reader := b }, rfl, rfl⟩) x

theorem writer_endures (x : CRoutine (Buffered ω) α) :
    Endures (OnTree P) (OnTree P) (Routine.within (bufioWriter (ρ := ρ)) x) fun _ => OnTree P :=
  separate_endures separate_bufioWriter (fun d b => ⟨{ d with writer := b }, rfl, rfl⟩) x

theorem config_endures (x : CRoutine (HufConfig ρ ω) α) :
    Endures (OnTree P) (OnTree P) (Routine.within config x) fun _ => OnTree P :=
  separate_endures separate_config (fun d b => ⟨{ d with config := b }, rfl, rfl⟩) x

theorem setLastNode_endures (lastNode : Option ℕ) :
    Endures (OnTree P) (OnTree P) (Routine.within (self (ρ := ρ) (ω := ω))
      (Routine.modify fun self => { self with lastNode })) fun _ => OnTree P := by
  apply Endures.separate separate_self
  · rintro _ _ _ _ - - ⟨⟩
  · rintro _ _ _ _ ⟨d, rfl, hd⟩ ⟨⟩ ⟨⟩
    exact ⟨{ d with lastNode }, rfl, hd⟩

/-- A routine on the tree. -/
theorem tree_endures {x : CRoutine TreeStore α} {Inv : TreeStore → Prop}
    {Post : α → TreeStore → Prop} (h : Endures Inv P x Post) :
    Endures (OnTree Inv) (OnTree P) (Routine.within (huffmanTree (ρ := ρ) (ω := ω)) x)
      fun a => OnTree (Post a) := by
  apply Endures.within carries_huffmanTree
  rintro _ _ ⟨d, rfl, hd⟩ ⟨⟩
  apply h.mono
  · rintro _ rfl
    exact hd
  · exact fun t ht => ⟨{ d with tree := t }, rfl, ht⟩
  · exact fun a t ht => ⟨{ d with tree := t }, rfl, ht⟩

theorem malloc_endures
    (hP : ∀ t outcomes, P t → P { t with heap := { t.heap with allocations := outcomes } }) :
    Endures (OnTree P) (OnTree P)
      (Routine.within (SelfRun.allocator : Place Fault (DecodeRun ρ ω) (List Bool)) hufMalloc)
      fun _ => OnTree P := by
  apply SelfRun.allocator_endures hufMalloc_endures _ fun _ hs => hs
  rintro _ outcomes ⟨d, rfl, hd⟩
  exact ⟨{ d with tree := { d.tree with heap := { d.tree.heap with allocations := outcomes } } },
    rfl, hP d.tree outcomes hd⟩

/-- A routine that goes on with the tree. -/
theorem tree_bind {f : TreeStore → CRoutine (DecodeRun ρ ω) α} {Inv Pre : DecodeRun ρ ω → Prop}
    {Post : α → DecodeRun ρ ω → Prop} (hsame : ∀ t, f (schedule [] t) = f t)
    (h : ∀ t, Endures Inv Pre (f t) Post) :
    Endures Inv Pre (Routine.within huffmanTree Routine.get >>= f) Post := by
  apply Endures.carried_bind carries_huffmanTree _ hsame
  · exact fun t => (h t).strengthen fun _ hs => hs.1
  · intro s t hload
    rcases s with ⟨_ | ⟨config, _ | tree, lastNode, writer, reader⟩, world⟩ <;> cases hload
    rfl

end

end DecodeRun

/-! ## The routines of the decoder -/

section

open DecodeRun

variable {P : TreeStore → Prop}

theorem decodeBit_endures (bit : Bool) :
    Endures (OnTree P) (OnTree P) (decodeBit (ρ := ρ) (ω := ω) bit) fun _ => OnTree P := by
  apply Endures.get_bind fun _ => rfl
  intro s₀
  apply Endures.strengthen _ fun s hs => hs.2
  apply Endures.read_bind separate_self
  intro self
  apply Endures.strengthen _ fun s hs => hs.1
  apply Endures.demand_bind
  intro node _
  apply (setLastNode_endures _).bind
  intro _
  apply Endures.ite
  · exact fun _ => Endures.fail fun _ hs => hs
  intro _
  apply Endures.fetch_bind fun _ => rfl
  intro next
  apply Endures.ite
  · exact fun _ => Endures.pure fun _ hs => hs
  intro _
  apply (writer_endures _).bind
  intro _
  apply tree_bind fun _ => rfl
  intro t
  apply (setLastNode_endures _).bind
  intro _
  exact Endures.pure fun _ hs => hs

theorem decodeBits_endures (byte : UInt8) (len n restored : ℕ) :
    Endures (OnTree P) (OnTree P) (decodeBits (ρ := ρ) (ω := ω) byte len n restored)
      fun _ => OnTree P := by
  induction n generalizing restored with
  | zero => exact Endures.pure fun _ hs => hs
  | succ n ih =>
      apply (decodeBit_endures _).bind
      intro done
      apply Endures.ite
      · intro _
        apply Endures.ite
        · exact fun _ => Endures.pure fun _ hs => hs
        · exact fun _ => ih _
      · exact fun _ => ih _

theorem hufDecodeBlock_endures (len : ℕ) :
    Endures (OnTree P) (OnTree P) (hufDecodeBlock (ρ := ρ) (ω := ω) len) fun _ => OnTree P := by
  have hloop : Endures (OnTree P) (OnTree P) (do
      let _ ← Routine.whileLoop .endless
        (fun l => pure (decide (l.1 < len)))
        (fun l => do
          let byte ← Routine.within (bufioReader (ρ := ρ) (ω := ω)) (hufBufioReadUint8 l.2)
          let restored ← decodeBits byte len 8 l.1
          return .next (restored, byte))
        ((len + 1) * (hufBtreeLen + 1) + 1) (0, 0)) fun _ => OnTree P := by
    apply Endures.bind (Q := fun _ => OnTree P)
    · apply Endures.whileLoop (fun _ => OnTree P) fun _ => OnTree P
      · intro _
        apply Endures.pure
        intro s hs
        split <;> exact hs
      · intro l
        apply (reader_endures _).bind
        intro byte
        apply (decodeBits_endures _ _ _ _).bind
        intro restored
        exact Endures.pure fun _ hs => hs
    · intro _
      exact Endures.pure fun _ hs => hs
  apply Endures.read_bind separate_self
  intro self
  apply Endures.strengthen _ fun s hs => hs.1
  apply Endures.ite
  · intro _
    apply tree_bind fun _ => rfl
    intro t
    apply (setLastNode_endures _).bind
    intro _
    exact hloop
  · exact fun _ => hloop

/-- An empty tree can be released. -/
theorem onTree_rooted {s : DecodeRun ρ ω} (h : OnTree (fun t => t.tree.root = none) s) :
    OnTree Rooted s := by
  rcases h with ⟨d, hd, hroot⟩
  exact ⟨d, hd, .nil, hroot ▸ d.tree.heap.holds_none⟩

theorem rooted_of_empty {α : Type} {Pre : DecodeRun ρ ω → Prop} {x : CRoutine (DecodeRun ρ ω) α}
    {Post : α → DecodeRun ρ ω → Prop}
    (h : Endures (OnTree fun t => t.tree.root = none) Pre x Post) :
    Endures (OnTree Rooted) Pre x Post :=
  h.mono (fun _ hs => hs) (fun _ hs => onTree_rooted hs) fun _ _ hs => hs

/-- A block starts and ends with an empty tree. -/
theorem decodeNextBlock_endures (treeLength : Int16) :
    Endures (OnTree Rooted) (OnTree fun t => t.tree.root = none)
      (decodeNextBlock (ρ := ρ) (ω := ω) treeLength)
      fun _ => OnTree fun t => t.tree.root = none := by
  apply Endures.read_bind separate_config
  intro config
  apply Endures.strengthen _ fun s hs => hs.1
  apply (rooted_of_empty (reader_endures _)).bind
  intro buf
  apply (rooted_of_empty (config_endures _)).bind
  intro _
  apply (rooted_of_empty (reader_endures _)).bind
  intro buf
  apply Endures.ite
  · exact fun _ => rooted_of_empty (Endures.fail fun _ hs => hs)
  intro _
  apply (rooted_of_empty (malloc_endures fun _ _ ht => ht)).bind
  intro _
  apply (rooted_of_empty (reader_endures _)).bind
  intro treeHead
  apply (tree_endures (hufTreeDeserialize_endures _ _)).bind
  intro _
  apply Endures.read_bind separate_config
  intro config
  apply Endures.strengthen _ fun s hs => hs.1
  apply (hufDecodeBlock_endures _).bind
  intro _
  apply (tree_endures (hufTreeReset_endures.weaken fun _ _ ht => congrArg HufTree.root ht)).bind
  intro _
  apply (rooted_of_empty (setLastNode_endures none)).bind
  intro _
  exact Endures.pure fun _ hs => hs

/-- The blocks follow those without failures, and the tree can be released wherever
they end. -/
theorem decodeBlocks_endures :
    Endures (OnTree Rooted) (OnTree fun t => t.tree.root = none)
      (decodeBlocks (ρ := ρ) (ω := ω)) fun _ => OnTree Rooted := by
  apply Endures.read_bind separate_config
  intro config
  apply Endures.strengthen _ fun s hs => hs.1
  apply Endures.bind (Q := fun _ => OnTree fun t => t.tree.root = none)
  · apply Endures.whileLoop (fun _ => OnTree fun t => t.tree.root = none)
      fun _ => OnTree fun t => t.tree.root = none
    · intro _
      apply Endures.read_bind separate_config
      intro config
      apply Endures.read_bind separate_bufioReader
      intro reader
      apply Endures.pure
      intro s hs
      split <;> exact hs.1.1
    · intro treeLength
      apply (decodeNextBlock_endures treeLength).bind
      intro treeLength
      exact Endures.pure fun _ hs => hs
  · intro _
    apply (rooted_of_empty (writer_endures _)).weaken
    exact fun _ _ hs => onTree_rooted hs

end

end LibHuffman
