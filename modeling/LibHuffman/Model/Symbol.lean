/-
# Symbol mapping of `symbol.c`
-/

import LibHuffman.Model.System

namespace LibHuffman

open Foundation

/-- `huf_symbol_mapping_element_t`. The coding has one more byte than its length,
a zero. -/
structure HufSymbolMappingElement where
  length : ℕ
  coding : List UInt8
  deriving DecidableEq

/-- `huf_symbol_mapping_t` -/
structure HufSymbolMapping where
  length : ℕ
  symbols : List (Option HufSymbolMappingElement)
  deriving DecidableEq

/-- `huf_symbol_mapping_element_init` -/
def hufSymbolMappingElementInit (coding : List UInt8) :
    CRoutine (List Bool) HufSymbolMappingElement := do
  hufMalloc
  hufMalloc
  return ⟨coding.length, coding ++ [0]⟩

/-- `huf_symbol_mapping_init` -/
def hufSymbolMappingInit (length : ℕ) : CRoutine (Creation HufSymbolMapping) Unit := do
  Creation.malloc
  Creation.assign ⟨0, []⟩
  Creation.malloc
  Creation.assign ⟨length, List.replicate length none⟩

/-- `__huf_symbol_mapping_free`: release the element of every slot below the
length. -/
def hufSymbolMappingFreeElements : CRoutine HufSymbolMapping Unit := do
  (List.range (← Routine.get).length).forM fun index => do
    match ← Routine.demand (load (← Routine.get).symbols index) with
    | none => pure ()
    | some _ =>
      let symbols ← Routine.demand (store (← Routine.get).symbols index none)
      Routine.modify fun self => { self with symbols }

/-- `huf_symbol_mapping_free`. It is `__huf_symbol_mapping_free` that refuses a null
mapping. -/
def hufSymbolMappingFree : CRoutine (Option HufSymbolMapping) Unit := do
  let _ ← requireParam (← Routine.get)
  Routine.within { load := deref, store := fun self _ => some self } hufSymbolMappingFreeElements
  Routine.modify fun _ => none

/-- `routine_inrange_m(position, 0, self->length - 1)` -/
def requirePosition (position : ℕ) : CRoutine HufSymbolMapping Unit := do
  if position > sizeSub (← Routine.get).length 1 then
    Routine.fail .invalidArgument

/-- `huf_symbol_mapping_insert` -/
def hufSymbolMappingInsert (position : ℕ) (element : HufSymbolMappingElement) :
    CRoutine HufSymbolMapping Unit := do
  requirePosition position
  let _ ← Routine.demand (load (← Routine.get).symbols position)
  let symbols ← Routine.demand (store (← Routine.get).symbols position (some element))
  Routine.modify fun self => { self with symbols }

/-- `huf_symbol_mapping_get` -/
def hufSymbolMappingGet (position : ℕ) :
    CRoutine HufSymbolMapping (Option HufSymbolMappingElement) := do
  requirePosition position
  Routine.demand (load (← Routine.get).symbols position)

/-- `huf_symbol_mapping_reset` -/
def hufSymbolMappingReset : CRoutine HufSymbolMapping Unit :=
  hufSymbolMappingFreeElements

end LibHuffman
