/-
# Deserialization of arbitrary words

The words that `huf_tree_deserialize` is given come from a stream and may be anything.
Every call of the recursion is followed with the words that are left for it: none
inspects a word past the length, and what a left branch takes leaves a number of words
for the right one. The tree that results is serialized to the words that were taken, and
a marker for every child that was missing when the words ran out.
-/

import LibHuffman.Trees.RoundTrip
import Mathlib.Logic.Relation

namespace LibHuffman

open Foundation Allocating

/-! ## Calls of the recursion -/

/-- The arguments of a call of `__huf_deserialize_tree`. -/
structure DeserializeCall where
  fuel : ℕ
  slot : NodeSlot
  pos : ℕ
  bufLen : ℕ
  store : TreeStore

/-- What a call does. -/
def DeserializeCall.outcome (buf : List Int16) (call : DeserializeCall) :
    Outcome Fault HufError TreeStore ℕ :=
  hufDeserializeTree buf call.fuel call.slot call.pos call.bufLen call.store

/-- The call that `huf_tree_deserialize` makes. -/
def firstCall (len : ℕ) (s : TreeStore) : DeserializeCall := ⟨len + 1, .root, 0, len, s⟩

/-- A call makes another one: for its left branch when its node is linked, and for its
right branch when the left one has returned. -/
inductive Calls (buf : List Int16) : DeserializeCall → DeserializeCall → Prop
  | left {fuel pos bufLen node : ℕ} {slot : NodeSlot} {nodeIndex : Int16}
      {s s₁ s₂ s₃ : TreeStore} (hlen : ¬ bufLen < 1) (hword : load buf pos = .ok nodeIndex)
      (hindex : nodeIndex ≠ hufLeafNode)
      (hmalloc : Routine.within TreeStore.nodes Heap.mallocNode s = .ok (.ok node, s₁))
      (hassign : slot.assign node s₁ = .ok (.ok (), s₂))
      (hupdate : Routine.within TreeStore.nodes (Heap.update (some node)
        fun node => { node with index := nodeIndex }) s₂ = .ok (.ok (), s₃)) :
      Calls buf ⟨fuel + 1, slot, pos, bufLen, s⟩
        ⟨fuel, .left node, pos + 1, sizeSub bufLen 1, s₃⟩
  | right {fuel pos bufLen leftLen node leftBranchLen : ℕ} {slot : NodeSlot}
      {s s₃ s₄ : TreeStore}
      (hleft : Calls buf ⟨fuel + 1, slot, pos, bufLen, s⟩ ⟨fuel, .left node, pos + 1, leftLen, s₃⟩)
      (houtcome : DeserializeCall.outcome buf ⟨fuel, .left node, pos + 1, leftLen, s₃⟩ =
        .ok (.ok leftBranchLen, s₄)) :
      Calls buf ⟨fuel + 1, slot, pos, bufLen, s⟩
        ⟨fuel, .right node, pos + 1 + leftBranchLen, sizeSub (sizeSub bufLen leftBranchLen) 1, s₄⟩

/-- The calls of a deserialization. -/
def ReachedCall (buf : List Int16) (len : ℕ) (s : TreeStore) : DeserializeCall → Prop :=
  Relation.ReflTransGen (Calls buf) (firstCall len s)

/-- A call has the words up to the length to read and a recursion that is deep enough for
them, and is left with a word for itself whatever its branches take. -/
structure DeserializeCall.Bounded (buf : List Int16) (len : ℕ) (call : DeserializeCall) :
    Prop where
  ends : call.pos + call.bufLen = len
  fuel : call.bufLen < call.fuel
  remaining : ∀ branch taken s', Calls buf call branch →
    branch.outcome buf = .ok (.ok taken, s') → taken + 1 ≤ call.bufLen

/-! ## What follows the words -/

/-- What stands behind the words of a deserialization is not read. -/
theorem hufDeserializeTree_append {words : List Int16} (more : List Int16) {fuel : ℕ}
    {slot : NodeSlot} {pos bufLen taken : ℕ} {s s' : TreeStore}
    (h : hufDeserializeTree words fuel slot pos bufLen s = .ok (.ok taken, s')) :
    hufDeserializeTree (words ++ more) fuel slot pos bufLen s = .ok (.ok taken, s') := by
  induction fuel generalizing slot pos bufLen taken s s' with
  | zero => cases h
  | succ fuel ih =>
      rw [hufDeserializeTree] at h ⊢
      by_cases hlen : bufLen < 1
      · rwa [if_pos hlen] at h ⊢
      rw [if_neg hlen] at h ⊢
      cases hword : words[pos]? with
      | none =>
          rw [load, hword] at h
          cases h
      | some word =>
          have hpos : pos < words.length := (List.getElem?_eq_some_iff.mp hword).1
          rw [load_of_getElem? hword, Routine.demand_ok_bind_apply] at h
          rw [load_of_getElem? ((List.getElem?_append_left hpos).trans hword),
            Routine.demand_ok_bind_apply]
          by_cases hmarker : word = hufLeafNode
          · rwa [if_pos hmarker] at h ⊢
          rw [if_neg hmarker] at h ⊢
          obtain ⟨node, s₁, hmalloc, h⟩ := Routine.bind_eq_ok h
          obtain ⟨_, s₂, hassign, h⟩ := Routine.bind_eq_ok h
          obtain ⟨_, s₃, hupdate, h⟩ := Routine.bind_eq_ok h
          obtain ⟨left, s₄, hleft, h⟩ := Routine.bind_eq_ok h
          obtain ⟨right, s₅, hright, h⟩ := Routine.bind_eq_ok h
          rw [Routine.bind_of_ok hmalloc, Routine.bind_of_ok hassign, Routine.bind_of_ok hupdate,
            Routine.bind_of_ok (ih hleft), Routine.bind_of_ok (ih hright)]
          exact h

/-! ## Every call is bounded -/

/-- Where a call is made: behind a pointer that is there, with the words up to the length
and a recursion that is deep enough. -/
structure DeserializeCall.Placed (len : ℕ) (call : DeserializeCall) : Prop where
  valid : call.slot.Valid call.store
  ends : call.pos + call.bufLen = len
  fuel : call.bufLen < call.fuel

section

variable {words more : List Int16} {call branch : DeserializeCall} {taken : ℕ} {s' : TreeStore}

/-- A call takes no more words than it has, and plants a tree. -/
theorem DeserializeCall.Placed.taken_le (h : call.Placed words.length)
    (hrun : call.outcome (words ++ more) = .ok (.ok taken, s')) :
    taken ≤ call.bufLen ∧
      ∃ tree, Planted call.slot tree (schedule [] call.store) (schedule [] s') := by
  rw [DeserializeCall.outcome] at hrun
  have hsame := ((hufDeserializeTree_endures _ _ _ h.valid).unfailing rfl hrun).1
  have hvalid : call.slot.Valid (schedule [] call.store) := h.valid
  have hwords : (words.drop call.pos).length = call.bufLen := by
    rw [List.length_drop, ← h.ends, Nat.add_sub_cancel_left]
  have hfuel : (words.drop call.pos).length < call.fuel := by
    rw [hwords]
    exact h.fuel
  obtain ⟨t, hrun', hplanted, -⟩ := hufDeserializeTree_eq words call.pos hfuel hvalid rfl
  rw [hwords] at hrun'
  cases hsame.symm.trans (hufDeserializeTree_append more hrun')
  exact ⟨Nat.sub_le _ _, _, hplanted⟩

/-- The left call of a node is made for a node that has sprouted. -/
theorem Calls.sprouted {fuel pos bufLen leftLen node : ℕ} {slot : NodeSlot} {buf : List Int16}
    {s s₃ : TreeStore} (hvalid : slot.Valid s)
    (h : Calls buf ⟨fuel + 1, slot, pos, bufLen, s⟩ ⟨fuel, .left node, pos + 1, leftLen, s₃⟩) :
    1 ≤ bufLen ∧ leftLen = bufLen - 1 ∧ node = s.heap.next ∧
      ∃ nodeIndex, Sprouted slot nodeIndex (schedule [] s) (schedule [] s₃) := by
  cases h with
  | @left _ _ _ _ _ nodeIndex _ s₁ s₂ _ hlen hword hindex hmalloc hassign hupdate =>
      have hvalid' : slot.Valid (schedule [] s) := hvalid
      obtain ⟨t₁, t₂, t₃, hmalloc', hassign', hupdate', hsprouted⟩ :=
        sprout hvalid' rfl nodeIndex
      have hmallocEndures : Endures (fun _ => True) (fun _ => True)
          (Routine.within TreeStore.nodes Heap.mallocNode) fun _ _ => True := by
        apply Endures.within TreeStore.carries_nodes
        intro _ _ _ _
        exact Heap.mallocNode_endures (fun _ _ _ => trivial) fun _ _ _ => trivial
      have hassignEndures : Endures (fun _ => True) (fun _ => True) (slot.assign node) _ :=
        NodeSlot.assign_endures node
      have hupdateEndures : Endures (fun _ => True) (fun _ => True) _ _ :=
        TreeStore.update_endures node fun node => { node with index := nodeIndex }
      cases (hmallocEndures.unfailing trivial hmalloc).1.symm.trans hmalloc'
      cases (hassignEndures.unfailing trivial hassign).1.symm.trans hassign'
      cases (hupdateEndures.unfailing trivial hupdate).1.symm.trans hupdate'
      have hone : 1 ≤ bufLen := Nat.le_of_not_lt hlen
      exact ⟨hone, sizeSub_of_le hone, rfl, nodeIndex, hsprouted⟩

/-- The call for a left branch. -/
theorem Calls.placed_left {fuel pos bufLen leftLen node : ℕ} {slot : NodeSlot}
    {buf : List Int16} {len : ℕ} {s s₃ : TreeStore}
    (h : Calls buf ⟨fuel + 1, slot, pos, bufLen, s⟩ ⟨fuel, .left node, pos + 1, leftLen, s₃⟩)
    (hplaced : DeserializeCall.Placed len ⟨fuel + 1, slot, pos, bufLen, s⟩) :
    DeserializeCall.Placed len ⟨fuel, .left node, pos + 1, leftLen, s₃⟩ ∧
      leftLen + 1 = bufLen ∧ NodeSlot.Valid s₃ (.right node) := by
  obtain ⟨hone, hleftLen, hnode, _, hsprouted⟩ := h.sprouted hplaced.valid
  have hends : pos + bufLen = len := hplaced.ends
  have hfuel : bufLen < fuel + 1 := hplaced.fuel
  have hvalid : NodeSlot.Valid s₃ (.left node) ∧ NodeSlot.Valid s₃ (.right node) :=
    hnode ▸ hsprouted.valid
  subst hleftLen
  refine ⟨⟨hvalid.1, ?_, ?_⟩, ?_, hvalid.2⟩
  · show pos + 1 + (bufLen - 1) = len
    omega
  · show bufLen - 1 < fuel
    omega
  · exact Nat.sub_add_cancel hone

/-- A call makes its calls where they can be made, with a word less than it has. -/
theorem Calls.placed (h : Calls (words ++ more) call branch) (hplaced : call.Placed words.length) :
    branch.Placed words.length ∧ branch.bufLen + 1 ≤ call.bufLen := by
  cases h with
  | @left fuel pos bufLen node slot nodeIndex s s₁ s₂ s₃ hlen hword hindex hmalloc hassign
      hupdate =>
      have hcall : Calls (words ++ more) ⟨fuel + 1, slot, pos, bufLen, s⟩
          ⟨fuel, .left node, pos + 1, sizeSub bufLen 1, s₃⟩ :=
        .left hlen hword hindex hmalloc hassign hupdate
      obtain ⟨hleft, hleftLen, -⟩ := hcall.placed_left hplaced
      exact ⟨hleft, Nat.le_of_eq hleftLen⟩
  | @right fuel pos bufLen leftLen node leftBranchLen slot s s₃ s₄ hcall houtcome =>
      obtain ⟨hleft, hleftLen, hvalid⟩ := hcall.placed_left hplaced
      obtain ⟨htaken, tree, hplanted⟩ := hleft.taken_le houtcome
      have hends : pos + bufLen = words.length := hplaced.ends
      have hfuel : bufLen < fuel + 1 := hplaced.fuel
      have htaken' : leftBranchLen ≤ leftLen := htaken
      have hvalid' : NodeSlot.Valid (schedule [] s₃) (.right node) := hvalid
      -- neither of the two subtractions wraps
      have hroom : sizeSub (sizeSub bufLen leftBranchLen) 1 = bufLen - leftBranchLen - 1 := by
        have hle : leftBranchLen ≤ bufLen := by omega
        have hone : 1 ≤ bufLen - leftBranchLen := by omega
        rw [sizeSub_of_le hle, sizeSub_of_le hone]
      rw [hroom]
      refine ⟨⟨hplanted.valid_right hvalid', ?_, ?_⟩, ?_⟩
      · show pos + 1 + leftBranchLen + (bufLen - leftBranchLen - 1) = words.length
        omega
      · show bufLen - leftBranchLen - 1 < fuel
        omega
      · show bufLen - leftBranchLen - 1 + 1 ≤ bufLen
        omega

/-- Every call of a deserialization is bounded. -/
theorem ReachedCall.bounded {s : TreeStore} (h : ReachedCall (words ++ more) words.length s call) :
    call.Bounded (words ++ more) words.length := by
  have hplaced : call.Placed words.length := by
    induction h with
    | refl => exact ⟨trivial, Nat.zero_add _, Nat.lt_succ_self _⟩
    | tail _ hcall ih => exact (hcall.placed ih).1
  refine ⟨hplaced.ends, hplaced.fuel, fun branch taken s' hcall houtcome => ?_⟩
  obtain ⟨hbranch, hlen⟩ := hcall.placed hplaced
  exact Nat.le_trans (Nat.succ_le_succ (hbranch.taken_le houtcome).1) hlen

end

/-! ## What is taken -/

section

variable {s : TreeStore}

/-- In a reset tree, the words that are taken, and a marker for every child that is missing
when the words run out, are what the tree is serialized to. -/
theorem hufTreeDeserialize_takes (words : List Int16) (hreset : s.tree = ⟨noLeaves, none⟩)
    (halloc : false ∉ s.heap.allocations) :
    ∃ taken missing s', Takes hufLeafNode words taken missing ∧
      (∀ more, hufTreeDeserialize (words ++ more) words.length s = .ok (.ok (), s') ∧
        (firstCall words.length s).outcome (words ++ more) = .ok (.ok taken, s') ∧
        ∀ call, ReachedCall (words ++ more) words.length s call →
          call.Bounded (words ++ more) words.length) ∧
      ∀ buf, taken + missing ≤ buf.length → hufTreeSerialize s' buf =
        .ok (words.take taken ++ List.replicate missing hufLeafNode ++
          buf.drop (taken + missing), taken + missing) := by
  have hvalid : NodeSlot.Valid s .root := trivial
  have hfuel : words.length < words.length + 1 := Nat.lt_succ_self _
  obtain ⟨t, hrun, hplanted, -⟩ := hufDeserializeTree_eq words 0 hfuel
    (show NodeSlot.Valid (schedule [] s) .root from trivial) rfl
  rw [List.drop_zero] at hrun hplanted
  obtain ⟨s', hrun', hsame⟩ :=
    (hufDeserializeTree_endures words 0 words.length hvalid).succeeding rfl halloc hrun
  obtain ⟨taken, missing, htakes, hrest, hpreorder⟩ := readPreorder_takes (α := Int16) hfuel
  rw [hrest] at hrun'
  have htaken : words.length - (words.drop taken).length = taken := by
    have hle := htakes.le
    rw [List.length_drop]
    omega
  rw [htaken] at hrun'
  refine ⟨taken, missing, s', htakes, fun more => ⟨?_, ?_, fun call => ReachedCall.bounded⟩, ?_⟩
  · exact Routine.bind_of_ok (hufDeserializeTree_append more hrun')
  · exact hufDeserializeTree_append more hrun'
  · intro buf hroom
    rw [hsame] at hplanted
    have hholds : s'.heap.Holds s'.tree.root
        (readPreorder hufLeafNode (words.length + 1) words).1 :=
      (hplanted.holds (congrArg HufTree.root hreset)).of_nodes rfl rfl
    have hlength : 2 * (readPreorder hufLeafNode (words.length + 1) words).1.numNodes + 1 =
        taken + missing := by
      have hwords := congrArg List.length hpreorder
      have hle := htakes.le
      simp only [length_preorder, List.length_append, List.length_take,
        List.length_replicate] at hwords
      omega
    rw [hufTreeSerialize_eq hholds (by omega), hpreorder, hlength]

end

/-- A root without a right child, which a third word would have to mark. -/
theorem hufTreeDeserialize_takes_two :
    ∃ s', hufTreeDeserialize [5, -1] 2 ⟨⟨noLeaves, none⟩, ⟨fun _ => none, 0, []⟩⟩ =
        .ok (.ok (), s') ∧
      hufTreeSerialize s' [0, 0, 0, 9] = .ok ([5, -1, -1, 9], 3) := by
  obtain ⟨taken, missing, s', htakes, hrun, hserialize⟩ :=
    hufTreeDeserialize_takes (s := ⟨⟨noLeaves, none⟩, ⟨fun _ => none, 0, []⟩⟩) [5, -1] rfl
      List.not_mem_nil
  have hle : taken ≤ 2 := htakes.le
  have hopen := htakes.openPlaces_eq
  have hall := htakes.all_taken
  obtain rfl : taken = 2 := by
    by_contra hne
    have hzero : missing = 0 := by
      by_contra hmissing
      exact hne (hall hmissing)
    subst hzero
    obtain rfl | rfl : taken = 0 ∨ taken = 1 := by omega
    · exact absurd hopen (by decide)
    · exact absurd hopen (by decide)
  obtain rfl : missing = 1 := by
    have hone : openPlaces hufLeafNode (List.take 2 [5, -1]) = 1 := by decide
    rw [hone] at hopen
    omega
  exact ⟨s', (hrun []).1, hserialize [0, 0, 0, 9] (by decide)⟩

end LibHuffman
