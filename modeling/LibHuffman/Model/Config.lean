/-
# Configuration of `config.c`

A run of the encoder or the decoder is given two streams, the reader's and the
writer's, and the heap; what else it uses it allocates and releases itself.
-/

import LibHuffman.Model.Bufio
import LibHuffman.Model.Tree

namespace LibHuffman

open Foundation

/-- `huf_config_t` over readers `ρ` and writers `ω`. -/
structure HufConfig (ρ ω : Type) where
  length : ℕ
  blocksize : ℕ
  readerBufferSize : ℕ
  writerBufferSize : ℕ
  reader : Option (HufReadWriter ρ)
  writer : Option (HufReadWriter ω)

/-- What a run of the library shares with its caller. -/
structure World (ρ ω : Type) where
  input : ρ
  output : ω
  heap : Heap

section

variable {ρ ω : Type}

/-- `huf_config_init`, followed by the copy of the given configuration. -/
def hufConfigInit (config : HufConfig ρ ω) : CRoutine (Creation (HufConfig ρ ω)) Unit := do
  Creation.malloc
  Creation.assign config

/-- `huf_config_free` -/
def hufConfigFree : CRoutine (Option (HufConfig ρ ω)) Unit :=
  Routine.modify fun _ => none

end

/-! ## An object of the run -/

/-- A run that owns an object: the local pointer `self` and the objects of the caller. -/
abbrev SelfRun (γ ρ ω : Type) : Type := Option γ × World ρ ω

namespace SelfRun

variable {γ ρ ω α : Type}

/-- Change the object behind `self`, if there is one. -/
def onSelf (change : γ → γ) (s : SelfRun γ ρ ω) : SelfRun γ ρ ω := (s.1.map change, s.2)

/-- The allocator. -/
def allocator : Place Fault (SelfRun γ ρ ω) (List Bool) where
  load s := .ok s.2.heap.allocations
  store allocations s := (s.1, { s.2 with heap := { s.2.heap with allocations } })

/-- A pointer of the object that is being initialized. -/
def creating (field : γ → Option α) (assign : Option α → γ → γ) :
    Place Fault (SelfRun γ ρ ω) (Creation α) where
  load s := do return ⟨field (← deref s.1), s.2.heap.allocations⟩
  store c s := onSelf (assign c.object)
    (s.1, { s.2 with heap := { s.2.heap with allocations := c.allocations } })

/-- A pointer of the object that is being released. -/
def releasing (field : γ → Option α) (assign : Option α → γ → γ) :
    Place Fault (SelfRun γ ρ ω) (Option α) where
  load s := do return field (← deref s.1)
  store object := onSelf (assign object)

/-- The tree of the object, which is being released, with the heap. -/
def releasingTree (field : γ → Option HufTree) (assign : Option HufTree → γ → γ) :
    Place Fault (SelfRun γ ρ ω) (Option HufTree × Heap) where
  load s := do return (field (← deref s.1), s.2.heap)
  store t s := onSelf (assign t.1) (s.1, { s.2 with heap := t.2 })

/-- Allocations that all succeed leave no trace. -/
theorem within_allocator {s : SelfRun γ ρ ω} (halloc : s.2.heap.allocations = [])
    {x : CRoutine (List Bool) α} {r : Except HufError α} (h : x [] = .ok (r, [])) :
    Routine.within allocator x s = .ok (r, s) := by
  have hrun : x s.2.heap.allocations = .ok (r, s.2.heap.allocations) := by
    rw [halloc]
    exact h
  exact Routine.within_of_ok rfl hrun

/-- An initialization that succeeds sets its pointer and nothing else. -/
theorem within_creating {field : γ → Option α} {assign : Option α → γ → γ} {self : γ}
    {world : World ρ ω} {x : CRoutine (Creation α) Unit} {a : α}
    (halloc : world.heap.allocations = []) (h : x ⟨field self, []⟩ = .ok (.ok (), ⟨some a, []⟩)) :
    Routine.within (creating field assign) x (some self, world) =
      .ok (.ok (), (some (assign (some a) self), world)) := by
  have hload : (creating field assign).load (some self, world) = .ok ⟨field self, []⟩ := by
    rw [← halloc]
    rfl
  rw [Routine.within_of_ok hload h]
  show Except.ok (Except.ok (), (some (assign (some a) self),
    { world with heap := { world.heap with allocations := [] } })) = _
  rw [← halloc]

end SelfRun

end LibHuffman
