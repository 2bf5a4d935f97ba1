/-
# What a run is given

Two runs are given configurations that differ in the streams only, and worlds with streams
that are alike and with the same heap. What they create for themselves is alike then.
-/

import LibHuffman.Likeness.Bufio
import LibHuffman.Model.Config

namespace LibHuffman

open Foundation

variable {Stray : Fault → Prop} {ρ ρ' ω ω' α : Type}

/-- Two configurations, for a reader and a writer of both kinds. -/
structure ConfigsAlike (L : Likeness Stray ρ ρ') (M : Likeness Stray ω ω')
    (c : HufConfig ρ ω) (c' : HufConfig ρ' ω') : Prop where
  length : c'.length = c.length
  blocksize : c'.blocksize = c.blocksize
  readerBufferSize : c'.readerBufferSize = c.readerBufferSize
  writerBufferSize : c'.writerBufferSize = c.writerBufferSize
  reader : Option.Rel L.functions c.reader c'.reader
  writer : Option.Rel M.functions c.writer c'.writer
  readerAllowed : L.Allows c.readerBufferSize
  writerAllowed : M.Allows c.writerBufferSize

/-- What two runs share with their callers. -/
structure WorldsAlike (L : Likeness Stray ρ ρ') (M : Likeness Stray ω ω')
    (w : World ρ ω) (w' : World ρ' ω') : Prop where
  input : L.like w.input w'.input
  output : M.like w.output w'.output
  heap : w'.heap = w.heap

/-- Two pointers that are being initialized. -/
structure CreationsAlike {β : Type} (S : α → β → Prop) (c : Creation α) (c' : Creation β) :
    Prop where
  object : Option.Rel S c.object c'.object
  allocations : c'.allocations = c.allocations

section

variable {β : Type} {S : α → β → Prop}

theorem requireParam_mirrors {σ τ : Type} {R : σ → τ → Prop} {γ : Type} {W : γ → Prop}
    {f : α → CRoutine σ γ} {g : β → CRoutine τ γ} {o : Option α} {o' : Option β}
    (ho : Option.Rel S o o') (h : ∀ a b, S a b → Mirrors Stray R (f a) (g b) W) :
    Mirrors Stray R (requireParam o >>= f) (requireParam o' >>= g) W := by
  cases ho with
  | none => exact Mirrors.fail _
  | some hs => exact h _ _ hs

theorem malloc_mirrors :
    Mirrors Stray (CreationsAlike S) Creation.malloc Creation.malloc fun _ => True := by
  refine (Mirrors.refl hufMalloc).within fun c c' hc =>
    .inr ⟨c.allocations, c.allocations, rfl, ?_, rfl, ?_⟩
  · rw [← hc.allocations]
    rfl
  · rintro outcomes _ rfl
    exact ⟨hc.object, rfl⟩

theorem assign_mirrors {a : α} {b : β} (h : S a b) :
    Mirrors Stray (CreationsAlike S) (Creation.assign a) (Creation.assign b) fun _ => True :=
  Mirrors.modify fun _ _ hc => ⟨.some h, hc.allocations⟩

end

section

variable {L : Likeness Stray ρ ρ'} {M : Likeness Stray ω ω'}

theorem hufConfigInit_mirrors {c : HufConfig ρ ω} {c' : HufConfig ρ' ω'}
    (h : ConfigsAlike L M c c') :
    Mirrors Stray (CreationsAlike (ConfigsAlike L M)) (hufConfigInit c) (hufConfigInit c')
      fun _ => True := by
  apply malloc_mirrors.bind
  exact fun _ _ => assign_mirrors h

theorem hufBufioReadWriterInit_mirrors {r : Option (HufReadWriter ρ)}
    {r' : Option (HufReadWriter ρ')} (hr : Option.Rel L.functions r r') {capacity : ℕ}
    (hcapacity : L.Allows capacity) :
    Mirrors Stray (CreationsAlike L.buffers) (hufBufioReadWriterInit r capacity)
      (hufBufioReadWriterInit r' capacity) fun _ => True := by
  have hnew {f f' : Unit → CRoutine _ Unit}
      (hf : Mirrors Stray (CreationsAlike L.buffers) (f ()) (f' ()) fun _ => True) :
      Mirrors Stray (CreationsAlike L.buffers) (Creation.malloc >>= f) (Creation.malloc >>= f')
        fun _ => True :=
    malloc_mirrors.bind fun _ _ => hf
  apply requireParam_mirrors hr
  intro a b hab
  have hempty : L.buffers ⟨[], 0, 0, 0, 0, a⟩ ⟨[], 0, 0, 0, 0, b⟩ :=
    ⟨rfl, rfl, rfl, rfl, rfl, hab, L.allows_of_le _ _ (Nat.zero_le _) hcapacity⟩
  have hlast : Mirrors Stray (CreationsAlike L.buffers)
      (Creation.assign ⟨List.replicate capacity 0, 0, capacity, 0, 0, a⟩)
      (Creation.assign ⟨List.replicate capacity 0, 0, capacity, 0, 0, b⟩) fun _ => True := by
    apply assign_mirrors
    refine ⟨rfl, rfl, rfl, rfl, rfl, hab, ?_⟩
    show L.Allows (List.replicate capacity (0 : UInt8)).length
    rw [List.length_replicate]
    exact hcapacity
  apply hnew
  apply (assign_mirrors hempty).bind
  intro _ _
  apply Mirrors.ite
  · exact fun _ => hnew hlast
  · exact fun _ => hlast

theorem hufBufioReadWriterFree_mirrors :
    Mirrors Stray (Option.Rel L.buffers) hufBufioReadWriterFree hufBufioReadWriterFree
      fun _ => True := by
  intro b b' hb
  cases hb with
  | none => exact .fault _
  | some hb => exact .leave (fun _ _ => trivial) .none

theorem hufConfigFree_mirrors :
    Mirrors Stray (Option.Rel (ConfigsAlike L M)) hufConfigFree hufConfigFree fun _ => True :=
  Mirrors.modify fun _ _ _ => .none

end

/-! ## Runs with an object -/

/-- Two runs with objects that are related by `S`. -/
structure SelfRunsAlike {γ δ : Type} (S : γ → δ → Prop) (L : Likeness Stray ρ ρ')
    (M : Likeness Stray ω ω') (s : SelfRun γ ρ ω) (t : SelfRun δ ρ' ω') : Prop where
  self : Option.Rel S s.1 t.1
  world : WorldsAlike L M s.2 t.2

namespace SelfRun

section

variable {γ δ β β' : Type} {S : γ → δ → Prop} {T : β → β' → Prop} {L : Likeness Stray ρ ρ'}
  {M : Likeness Stray ω ω'}

/-- Places that cannot be followed without an object. -/
theorem place_corresponds {place : Place Fault (SelfRun γ ρ ω) β}
    {place' : Place Fault (SelfRun δ ρ' ω') β'}
    (hnull : ∀ w, place.load (none, w) = .error .nullPointer)
    (hnull' : ∀ w, place'.load (none, w) = .error .nullPointer)
    (h : ∀ a a' w w', S a a' → WorldsAlike L M w w' →
      (∃ fault, place.load (some a, w) = .error fault ∧
        place'.load (some a', w') = .error fault) ∨
      ∃ b c, place.load (some a, w) = .ok b ∧ place'.load (some a', w') = .ok c ∧ T b c ∧
        ∀ b c, T b c →
          SelfRunsAlike S L M (place.store b (some a, w)) (place'.store c (some a', w'))) :
    Corresponds place place' (SelfRunsAlike S L M) T := by
  rintro ⟨o, w⟩ ⟨o', w'⟩ ⟨hself, hworld⟩
  cases hself with
  | none => exact .inl ⟨_, hnull w, hnull' w'⟩
  | some ha => exact h _ _ w w' ha hworld

theorem allocator_corresponds :
    Corresponds allocator allocator (SelfRunsAlike S L M) Eq := by
  rintro ⟨o, _, _, heap⟩ ⟨o', _, _, heap'⟩ ⟨hself, hw⟩
  obtain rfl : heap' = heap := hw.heap
  refine .inr ⟨heap'.allocations, _, rfl, rfl, rfl, ?_⟩
  rintro outcomes _ rfl
  exact ⟨hself, { hw with heap := rfl }⟩

/-- A pointer that is being initialized. -/
theorem creating_corresponds {field : γ → Option β} {field' : δ → Option β'}
    {assign : Option β → γ → γ} {assign' : Option β' → δ → δ}
    (hfield : ∀ a a', S a a' → Option.Rel T (field a) (field' a'))
    (hassign : ∀ a a' o o', S a a' → Option.Rel T o o' → S (assign o a) (assign' o' a')) :
    Corresponds (creating field assign) (creating field' assign') (SelfRunsAlike S L M)
      (CreationsAlike T) := by
  apply place_corresponds (fun _ => rfl) (fun _ => rfl)
  rintro a a' ⟨_, _, heap⟩ ⟨_, _, heap'⟩ ha hw
  obtain rfl : heap' = heap := hw.heap
  refine .inr ⟨_, _, rfl, rfl, ⟨hfield a a' ha, rfl⟩, ?_⟩
  rintro ⟨o, outcomes⟩ ⟨o', _⟩ ⟨ho, rfl⟩
  exact ⟨.some (hassign a a' o o' ha ho), { hw with heap := rfl }⟩

/-- A pointer that is being released. -/
theorem releasing_corresponds {field : γ → Option β} {field' : δ → Option β'}
    {assign : Option β → γ → γ} {assign' : Option β' → δ → δ}
    (hfield : ∀ a a', S a a' → Option.Rel T (field a) (field' a'))
    (hassign : ∀ a a' o o', S a a' → Option.Rel T o o' → S (assign o a) (assign' o' a')) :
    Corresponds (releasing field assign) (releasing field' assign') (SelfRunsAlike S L M)
      (Option.Rel T) := by
  apply place_corresponds (fun _ => rfl) (fun _ => rfl)
  intro a a' w w' ha hw
  exact .inr ⟨_, _, rfl, rfl, hfield a a' ha, fun o o' ho => ⟨.some (hassign a a' o o' ha ho), hw⟩⟩

variable {field : γ → Option β} {field' : δ → Option β} {assign : Option β → γ → γ}
  {assign' : Option β → δ → δ}

/-- The same object is initialized. -/
theorem creating_same (hfield : ∀ a a', S a a' → field' a' = field a)
    (hassign : ∀ a a' o, S a a' → S (assign o a) (assign' o a')) (x : CRoutine (Creation β) α) :
    Mirrors Stray (SelfRunsAlike S L M) (Routine.within (creating field assign) x)
      (Routine.within (creating field' assign') x) fun _ => True := by
  apply (Mirrors.refl x).within
  apply place_corresponds (fun _ => rfl) (fun _ => rfl)
  rintro a a' ⟨_, _, heap⟩ ⟨_, _, heap'⟩ ha hw
  obtain rfl : heap' = heap := hw.heap
  refine .inr ⟨⟨field a, heap'.allocations⟩, _, rfl, rfl, by rw [hfield a a' ha], ?_⟩
  rintro ⟨o, outcomes⟩ _ rfl
  exact ⟨.some (hassign a a' o ha), { hw with heap := rfl }⟩

/-- The same object is released. -/
theorem releasing_same (hfield : ∀ a a', S a a' → field' a' = field a)
    (hassign : ∀ a a' o, S a a' → S (assign o a) (assign' o a')) (x : CRoutine (Option β) α) :
    Mirrors Stray (SelfRunsAlike S L M) (Routine.within (releasing field assign) x)
      (Routine.within (releasing field' assign') x) fun _ => True := by
  apply (Mirrors.refl x).within
  apply place_corresponds (fun _ => rfl) (fun _ => rfl)
  intro a a' w w' ha hw
  refine .inr ⟨_, _, rfl, rfl, (hfield a a' ha).symm, ?_⟩
  rintro o _ rfl
  exact ⟨.some (hassign a a' o ha), hw⟩

/-- The same tree is released. -/
theorem releasingTree_same {field : γ → Option HufTree} {field' : δ → Option HufTree}
    {assign : Option HufTree → γ → γ} {assign' : Option HufTree → δ → δ}
    (hfield : ∀ a a', S a a' → field' a' = field a)
    (hassign : ∀ a a' o, S a a' → S (assign o a) (assign' o a'))
    (x : CRoutine (Option HufTree × Heap) α) :
    Mirrors Stray (SelfRunsAlike S L M) (Routine.within (releasingTree field assign) x)
      (Routine.within (releasingTree field' assign') x) fun _ => True := by
  apply (Mirrors.refl x).within
  apply place_corresponds (fun _ => rfl) (fun _ => rfl)
  rintro a a' ⟨_, _, heap⟩ ⟨_, _, heap'⟩ ha hw
  obtain rfl : heap' = heap := hw.heap
  refine .inr ⟨(field a, heap'), _, rfl, rfl, by rw [hfield a a' ha], ?_⟩
  rintro t _ rfl
  exact ⟨.some (hassign a a' t.1 ha), { hw with heap := rfl }⟩

end

end SelfRun

end LibHuffman
