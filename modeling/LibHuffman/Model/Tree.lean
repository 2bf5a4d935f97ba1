/-
# Huffman tree of `tree.c`

Nodes live in a heap and are linked by pointers in both directions, so a tree is
a root pointer. A pointer is the address of a node, a number, or null. A released
node stays released: the heap gives every allocation an address of its own, and
following a pointer to a released node is a fault.
-/

import LibHuffman.Model.Histogram

namespace LibHuffman

open Foundation

/-! ## Nodes in the heap -/

/-- `huf_node_t` -/
structure HufNode where
  index : Int16
  parent : Option ℕ
  left : Option ℕ
  right : Option ℕ
  deriving DecidableEq

/-- The nodes that are allocated and not released, the address of the next node,
and the outcomes of the coming allocations. -/
structure Heap where
  nodes : ℕ → Option HufNode
  next : ℕ
  allocations : List Bool

namespace Heap

/-- Where the heap finds the allocator. -/
def allocator : Place Fault Heap (List Bool) where
  load h := .ok h.allocations
  store allocations h := { h with allocations }

/-- The node at an address. -/
def read (heap : Heap) (p : ℕ) : Except Fault HufNode :=
  match heap.nodes p with
  | some node => .ok node
  | none => .error .releasedPointer

/-- The node a pointer points to. -/
def deref (heap : Heap) (pointer : Option ℕ) : Except Fault HufNode :=
  match pointer with
  | some p => heap.read p
  | none => .error .nullPointer

/-- Put a node at an address. -/
def put (heap : Heap) (p : ℕ) (node : Option HufNode) : Heap :=
  { heap with nodes := fun q => if q = p then node else heap.nodes q }

/-- Change the node a pointer points to. -/
def update (pointer : Option ℕ) (change : HufNode → HufNode) : CRoutine Heap Unit := do
  let p ← Routine.demand (LibHuffman.deref pointer)
  let node ← Routine.demand ((← Routine.get).read p)
  Routine.modify fun heap => heap.put p (some (change node))

/-- `huf_malloc` of a node, zeroed. -/
def mallocNode : CRoutine Heap ℕ := do
  Routine.within allocator hufMalloc
  let p := (← Routine.get).next
  Routine.modify fun heap => { heap.put p (some ⟨0, none, none, none⟩) with next := p + 1 }
  return p

/-- `free` of a node. -/
def free (pointer : Option ℕ) : CRoutine Heap Unit :=
  match pointer with
  | none => pure ()
  | some p => do
    let _ ← Routine.demand ((← Routine.get).read p)
    Routine.modify fun heap => heap.put p none

end Heap

/-- `huf_tree_t` -/
structure HufTree where
  leaves : List (Option ℕ)
  root : Option ℕ
  deriving DecidableEq

/-- A tree and the heap its nodes live in. -/
structure TreeStore where
  tree : HufTree
  heap : Heap

/-- The heap of a tree. -/
def TreeStore.nodes : Place Fault TreeStore Heap where
  load s := .ok s.heap
  store heap s := { s with heap }

/-- `huf_node_to_string`. The number is the room left in the buffer; the result
is what was written, a full buffer being cut off silently. -/
def hufNodeToString (heap : Heap) : ℕ → Option ℕ → Except Fault (List UInt8)
  | _, none => .ok []
  | 0, some p => do
    let _ ← heap.read p
    return []
  | room + 1, some p => do
    match (← heap.read p).parent with
    | none => return []
    | some q =>
      let parent ← heap.read q
      let char := if parent.left = some p then '0' else '1'
      return char.toUInt8 :: (← hufNodeToString heap room (some q))

/-! ## Creation and release -/

/-- An array of null pointers, one for every slot of `leaves`. -/
def noLeaves : List (Option ℕ) := List.replicate (hufAsciiCount * 2) none

/-- `huf_tree_init` -/
def hufTreeInit : CRoutine (Creation HufTree) Unit := do
  Creation.malloc
  Creation.assign ⟨[], none⟩
  Creation.malloc
  Creation.assign ⟨noLeaves, none⟩

/-- `__huf_tree_free`. The second assignment clears `left`, as in the source. -/
def hufTreeFreeBelow : ℕ → Option ℕ → CRoutine Heap Unit
  | 0, _ => Routine.demand (.error .endless)
  | _ + 1, none => pure ()
  | fuel + 1, some p => do
    let left := (← Routine.demand ((← Routine.get).read p)).left
    if left ≠ none then
      hufTreeFreeBelow fuel left
      Heap.free left
      Heap.update (some p) fun node => { node with left := none }
    let right := (← Routine.demand ((← Routine.get).read p)).right
    if right ≠ none then
      hufTreeFreeBelow fuel right
      Heap.free right
      Heap.update (some p) fun node => { node with left := none }

/-- Release every node of a tree. No chain of children is longer than the heap. -/
def releaseNodes (root : Option ℕ) : CRoutine Heap Unit := do
  hufTreeFreeBelow ((← Routine.get).next + 2) root
  Heap.free root

/-- `huf_tree_free` -/
def hufTreeFree : CRoutine (Option HufTree × Heap) Unit := do
  let self ← Routine.demand (deref (← Routine.get).1)
  Routine.within
    { load := fun s => .ok s.2, store := fun heap s => (s.1, heap) } (releaseNodes self.root)
  Routine.modify fun s => (none, s.2)

/-- `huf_tree_reset` -/
def hufTreeReset : CRoutine TreeStore Unit := do
  Routine.within TreeStore.nodes (releaseNodes (← Routine.get).tree.root)
  Routine.modify fun s => { s with tree := ⟨noLeaves, none⟩ }

/-! ## Serialization -/

/-- The variable behind a `huf_node_t **`. -/
inductive NodeSlot
  | root
  | left (node : ℕ)
  | right (node : ℕ)

/-- Assign to a node pointer. -/
def NodeSlot.assign (p : ℕ) : NodeSlot → CRoutine TreeStore Unit
  | .root => Routine.modify fun s => { s with tree := { s.tree with root := some p } }
  | .left node => Routine.within TreeStore.nodes
      (Heap.update (some node) fun node => { node with left := some p })
  | .right node => Routine.within TreeStore.nodes
      (Heap.update (some node) fun node => { node with right := some p })

/-- `__huf_deserialize_tree`. The buffer starts at position `pos` and has `bufLen`
words; the result is the number of words read. -/
def hufDeserializeTree (buf : List Int16) :
    ℕ → NodeSlot → ℕ → ℕ → CRoutine TreeStore ℕ
  | 0, _, _, _ => Routine.demand (.error .endless)
  | fuel + 1, slot, pos, bufLen => do
    if bufLen < 1 then
      return 0
    let nodeIndex ← Routine.demand (load buf pos)
    if nodeIndex = hufLeafNode then
      return 1
    let node ← Routine.within TreeStore.nodes Heap.mallocNode
    slot.assign node
    Routine.within TreeStore.nodes
      (Heap.update (some node) fun node => { node with index := nodeIndex })
    let leftBranchLen ← hufDeserializeTree buf fuel (.left node) (pos + 1) (sizeSub bufLen 1)
    let rightBranchLen ← hufDeserializeTree buf fuel (.right node) (pos + 1 + leftBranchLen)
      (sizeSub (sizeSub bufLen leftBranchLen) 1)
    return leftBranchLen + rightBranchLen + 1

/-- `huf_tree_deserialize` -/
def hufTreeDeserialize (buf : List Int16) (len : ℕ) : CRoutine TreeStore Unit := do
  let _ ← hufDeserializeTree buf (len + 1) .root 0 len

/-- `__huf_serialize_tree`. The result is the buffer and the number of words
written from position `pos` on. -/
def hufSerializeTree (heap : Heap) :
    ℕ → Option ℕ → List Int16 → ℕ → Except Fault (List Int16 × ℕ)
  | 0, _, _, _ => .error .endless
  | _ + 1, none, buf, pos => do
    let buf ← store buf pos hufLeafNode
    return (buf, 1)
  | fuel + 1, some p, buf, pos => do
    let node ← heap.read p
    let buf ← store buf pos node.index
    let (buf, leftBranchLen) ← hufSerializeTree heap fuel node.left buf (pos + 1)
    let (buf, rightBranchLen) ←
      hufSerializeTree heap fuel node.right buf (pos + 1 + leftBranchLen)
    return (buf, leftBranchLen + rightBranchLen + 1)

/-- `huf_tree_serialize` -/
def hufTreeSerialize (self : TreeStore) (buf : List Int16) : Except Fault (List Int16 × ℕ) :=
  hufSerializeTree self.heap (self.heap.next + 2) self.tree.root buf 0

/-! ## Construction from a histogram -/

/-- The objects `huf_tree_from_histogram` is given. Its `rates` are the
frequencies of the histogram. -/
structure HistogramTree where
  tree : HufTree
  histogram : HufHistogram
  heap : Heap

/-- The local variables of `huf_tree_from_histogram` that outlive an iteration. -/
structure BuildLocals where
  shadowTree : List (Option ℕ)
  start : ℕ
  node : ℕ
  deriving DecidableEq

/-- What `huf_tree_from_histogram` works on. -/
abbrev TreeBuild : Type := BuildLocals × HistogramTree

namespace TreeBuild

/-- The heap of the tree under construction. -/
def nodes : Place Fault TreeBuild Heap where
  load s := .ok s.2.heap
  store heap s := (s.1, { s.2 with heap })

/-- Assign to a slot of `shadow_tree`. -/
def setShadow (slot : ℕ) (p : ℕ) : CRoutine TreeBuild Unit := do
  let shadowTree ← Routine.demand (store (← Routine.get).1.shadowTree slot (some p))
  Routine.modify fun s => ({ s.1 with shadowTree }, s.2)

/-- Allocate the node of a slot of `shadow_tree`. -/
def mallocShadow (slot : ℕ) : CRoutine TreeBuild Unit := do
  let p ← Routine.within nodes Heap.mallocNode
  setShadow slot p

/-- Change the node in a slot of `shadow_tree`. -/
def updateShadow (slot : ℕ) (change : HufNode → HufNode) : CRoutine TreeBuild Unit := do
  let pointer ← Routine.demand (load (← Routine.get).1.shadowTree slot)
  Routine.within nodes (Heap.update pointer change)

/-- Assign to an element of `rates`. -/
def setRate (slot : ℕ) (rate : ℕ) : CRoutine TreeBuild Unit := do
  let frequencies ← Routine.demand (store (← Routine.get).2.histogram.frequencies slot rate)
  Routine.modify fun s =>
    (s.1, { s.2 with histogram := { s.2.histogram with frequencies } })

/-- Make the node in a slot of `shadow_tree` the root. -/
def setRoot (slot : ℕ) : CRoutine TreeBuild Unit := do
  let root ← Routine.demand (load (← Routine.get).1.shadowTree slot)
  Routine.modify fun s => (s.1, { s.2 with tree := { s.2.tree with root } })

end TreeBuild

/-- `rate1`, `rate2`, `index1` and `index2`; an index of -1 is `none`. -/
structure Minimum where
  rate1 : ℤ
  rate2 : ℤ
  index1 : Option ℕ
  index2 : Option ℕ
  deriving DecidableEq

/-- The body of the scan for the two minimal rates. -/
def Minimum.see (m : Minimum) (j : ℕ) (rate : ℤ) : Minimum :=
  if rate = 0 then m
  else if m.rate1 = 0 then { m with rate1 := rate, index1 := some j }
  else if rate ≤ m.rate1 then
    { rate1 := rate, rate2 := m.rate1, index1 := some j, index2 := m.index1 }
  else if m.rate2 = 0 ∨ rate ≤ m.rate2 then { m with rate2 := rate, index2 := some j }
  else m

/-- The scan of `rates` from `start` up to `node`. -/
def findMinimum (rates : List ℕ) (start node : ℕ) : Except Fault Minimum :=
  (List.range' start (node - start)).foldlM
    (fun m j => do return m.see j (toInt64 (← load rates j))) ⟨0, 0, none, none⟩

/-- `while (!rates[start]) start++`, reading the remaining rates one by one. -/
def skipZeroRates (rates : List ℕ) : ℕ → ℕ → Except Fault ℕ
  | 0, _ => .error .endless
  | fuel + 1, start => do
    if (← load rates start) = 0 then skipZeroRates rates fuel (start + 1)
    else return start

/-- Allocate the node of a child that does not have one yet. -/
def allocateChild (index : Option ℕ) : CRoutine TreeBuild Unit :=
  match index with
  | none => pure ()
  | some i => do
    if (← Routine.demand (load (← Routine.get).1.shadowTree i)) = none then
      TreeBuild.mallocShadow i

/-- Enter a child that stands for a byte in the leaves of the tree. -/
def publishLeaf (index : Option ℕ) : CRoutine TreeBuild Unit :=
  match index with
  | none => pure ()
  | some i => do
    if i < hufAsciiCount then
      let pointer ← Routine.demand (load (← Routine.get).1.shadowTree i)
      let leaves ← Routine.demand (store (← Routine.get).2.tree.leaves i pointer)
      Routine.modify fun s => (s.1, { s.2 with tree := { s.2.tree with leaves } })

/-- Link a child to the node in slot `node`, `attach` being the assignment to
`left` or `right`, and take its rate out. -/
def linkChild (node : ℕ) (index : Option ℕ)
    (attach : Option ℕ → HufNode → HufNode) : CRoutine TreeBuild Unit :=
  match index with
  | none => pure ()
  | some i => do
    let parent ← Routine.demand (load (← Routine.get).1.shadowTree node)
    TreeBuild.updateShadow i fun child => { child with parent }
    TreeBuild.updateShadow i fun child => { child with index := Int16.ofNat i }
    let pointer ← Routine.demand (load (← Routine.get).1.shadowTree i)
    TreeBuild.updateShadow node (attach pointer)
    TreeBuild.setRate i 0

/-- `rate1 + rate2` -/
def addRates (rate1 rate2 : ℤ) : Except Fault ℤ :=
  if -2 ^ 63 ≤ rate1 + rate2 ∧ rate1 + rate2 < 2 ^ 63 then .ok (rate1 + rate2)
  else .error .signedOverflow

/-- One iteration of the loop of `huf_tree_from_histogram`. -/
def mergeMinimum : CRoutine TreeBuild (LoopStep Unit) := do
  let rates := (← Routine.get).2.histogram.frequencies
  let start ← Routine.demand (skipZeroRates rates (rates.length + 1) (← Routine.get).1.start)
  Routine.modify fun s => ({ s.1 with start }, s.2)
  let node := (← Routine.get).1.node
  let m ← Routine.demand (findMinimum rates start node)
  if m.index1 = none ∧ m.index2 = none then
    TreeBuild.setRoot (node - 1)
    return .leave ()
  allocateChild m.index1
  allocateChild m.index2
  TreeBuild.mallocShadow node
  publishLeaf m.index1
  publishLeaf m.index2
  TreeBuild.updateShadow node fun self => { self with left := none }
  TreeBuild.updateShadow node fun self => { self with right := none }
  linkChild node m.index1 fun pointer self => { self with left := pointer }
  linkChild node m.index2 fun pointer self => { self with right := pointer }
  TreeBuild.updateShadow node fun self => { self with index := Int16.ofNat node }
  let rate ← Routine.demand (addRates m.rate1 m.rate2)
  TreeBuild.setRate node (ofInt64 rate)
  Routine.modify fun s => ({ s.1 with node := node + 1 }, s.2)
  if m.index1 ≠ none ∧ m.index2 = none then
    TreeBuild.setRoot (node + 1 - 1)
    return .leave ()
  return .next ()

/-- The release of every slot of `shadow_tree` after an error. -/
def freeShadow : CRoutine TreeBuild Unit := do
  (← Routine.get).1.shadowTree.forM fun pointer =>
    Routine.within TreeBuild.nodes (Heap.free pointer)

/-- `huf_tree_from_histogram` -/
def hufTreeFromHistogram : CRoutine HistogramTree Unit := do
  let start := (← Routine.get).histogram.start
  let shadowTreeLen := hufAsciiCount * 2
  Routine.withLocal ⟨List.replicate shadowTreeLen none, start, hufAsciiCount⟩
    (Routine.onFailure
      (Routine.whileLoop .endless
        (fun _ => do return decide ((← Routine.get).1.start < shadowTreeLen))
        (fun _ => mergeMinimum) (shadowTreeLen + 1) ())
      freeShadow)

end LibHuffman
