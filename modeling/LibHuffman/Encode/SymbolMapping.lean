/-
# Runs of the symbol mapping

A symbol mapping is a bounded map. What a call returns is told by the calls before it:
`huf_symbol_mapping_get` finds the element of the latest insert at its position since
the last reset, and a position out of range is refused before the array is accessed. The
range is checked against the length less one, a subtraction that wraps for a mapping
without slots; so such a mapping refuses nothing.
-/

import LibHuffman.Encode.Coding

namespace LibHuffman

open Foundation

/-! ## Calls and their meaning -/

/-- A call of the symbol mapping. -/
inductive MappingCall
  | insert (position : ℕ) (element : HufSymbolMappingElement)
  | get (position : ℕ)
  | reset
  deriving DecidableEq

/-- What a call returns: a code, or what `huf_symbol_mapping_get` has put behind the
pointer it was given. -/
abbrev MappingAnswer : Type := Except HufError (Option HufSymbolMappingElement)

namespace MappingCall

/-- The function a call stands for. -/
def run : MappingCall → CRoutine HufSymbolMapping (Option HufSymbolMappingElement)
  | .insert position element => do
    hufSymbolMappingInsert position element
    return none
  | .get position => hufSymbolMappingGet position
  | .reset => do
    hufSymbolMappingReset
    return none

/-- The slot that a call asks for. -/
def position : MappingCall → Option ℕ
  | .insert position _ => some position
  | .get position => some position
  | .reset => none

end MappingCall

/-- Make the calls one after the other, whatever they return. -/
def runMapping : List MappingCall → HufSymbolMapping →
    Except Fault (List MappingAnswer × HufSymbolMapping)
  | [], m => .ok ([], m)
  | call :: calls, m =>
    match call.run m with
    | .error fault => .error fault
    | .ok (answer, m') =>
      match runMapping calls m' with
      | .error fault => .error fault
      | .ok (answers, m'') => .ok (answer :: answers, m'')

/-- The element of the latest insert at a position since the last reset. The calls are
listed from the latest one on. -/
def latestInsert (position : ℕ) : List MappingCall → Option HufSymbolMappingElement
  | [] => none
  | .insert p element :: earlier =>
    if p = position then some element else latestInsert position earlier
  | .get _ :: earlier => latestInsert position earlier
  | .reset :: _ => none

/-- What a bounded map answers to a call after earlier ones. -/
def MappingCall.answer (length : ℕ) (earlier : List MappingCall) : MappingCall → MappingAnswer
  | .insert position _ => if position < length then .ok none else .error .invalidArgument
  | .get position =>
    if position < length then .ok (latestInsert position earlier) else .error .invalidArgument
  | .reset => .ok none

/-- What a bounded map answers to the calls of a run. -/
def mapAnswers (length : ℕ) : List MappingCall → List MappingCall → List MappingAnswer
  | _, [] => []
  | earlier, call :: calls =>
    call.answer length earlier :: mapAnswers length (call :: earlier) calls

/-- In a run, a mapping answers as a bounded map does, and a call out of range accesses
no slot: it is refused whatever slots there are. -/
structure BoundedMap (length : ℕ) (calls : List MappingCall) (m : HufSymbolMapping) : Prop where
  answers : ∃ m', runMapping calls m = .ok (mapAnswers length [] calls, m')
  refused : ∀ call ∈ calls, ∀ position, call.position = some position → length ≤ position →
    ∀ symbols, call.run { m with symbols } = .ok (.error .invalidArgument, { m with symbols })

/-- Every slot of a mapping holds the latest element. -/
structure Latest (length : ℕ) (earlier : List MappingCall) (m : HufSymbolMapping) : Prop where
  length_eq : m.length = length
  length_symbols : m.symbols.length = length
  slot : ∀ position < length, m.symbols[position]? = some (latestInsert position earlier)

/-! ## Calls in range and out of range -/

section

variable {length : ℕ} {earlier : List MappingCall} {m : HufSymbolMapping}

theorem requirePosition_eq_error {position : ℕ} (hlength : m.length ≠ 0)
    (h : m.length ≤ position) :
    requirePosition position m = .ok (.error .invalidArgument, m) := by
  rw [requirePosition, Routine.get_bind_apply, sizeSub_of_le (Nat.pos_of_ne_zero hlength),
    if_pos (by omega)]
  rfl

/-- A call out of range of a mapping with slots is refused by the check. -/
theorem MappingCall.run_refused {call : MappingCall} {position : ℕ} (hlength : m.length ≠ 0)
    (hcall : call.position = some position) (h : m.length ≤ position) :
    call.run m = .ok (.error .invalidArgument, m) := by
  have hcheck := requirePosition_eq_error hlength h
  cases call with
  | insert p element =>
      cases hcall
      apply Routine.bind_of_error
      exact Routine.bind_of_error hcheck
  | get p =>
      cases hcall
      exact Routine.bind_of_error hcheck
  | reset => cases hcall

theorem latest_new (length : ℕ) : Latest length [] ⟨length, List.replicate length none⟩ where
  length_eq := rfl
  length_symbols := List.length_replicate
  slot position h := by
    rw [List.getElem?_replicate, if_pos h]
    rfl

/-- One call. -/
theorem MappingCall.run_latest (h : Latest length earlier m) (call : MappingCall)
    (hlength : length ≠ 0 ∨ call = .reset) :
    ∃ m', call.run m = .ok (call.answer length earlier, m') ∧
      Latest length (call :: earlier) m' := by
  cases call with
  | insert position element =>
      have hslots : m.length ≠ 0 := by
        rw [h.length_eq]
        exact hlength.resolve_right fun hreset => by cases hreset
      by_cases hlt : position < length
      · rw [MappingCall.answer, if_pos hlt]
        have hinsert := hufSymbolMappingInsert_eq (m := m) (by rw [h.length_eq]; exact hlt)
          (h.length_symbols.trans h.length_eq.symm) element
        refine ⟨_, Routine.bind_of_ok hinsert, h.length_eq,
          (List.length_set ..).trans h.length_symbols, fun p hp => ?_⟩
        show (m.symbols.set position _)[p]? = _
        rw [latestInsert]
        by_cases hp' : position = p
        · subst hp'
          rw [if_pos rfl, List.getElem?_set_self (h.length_symbols ▸ hlt)]
        · rw [if_neg hp', List.getElem?_set_ne hp']
          exact h.slot p hp
      · rw [MappingCall.answer, if_neg hlt]
        refine ⟨m, MappingCall.run_refused hslots rfl (by rw [h.length_eq]; omega), h.length_eq,
          h.length_symbols, fun p hp => ?_⟩
        rw [latestInsert, if_neg (by omega)]
        exact h.slot p hp
  | get position =>
      have hslots : m.length ≠ 0 := by
        rw [h.length_eq]
        exact hlength.resolve_right fun hreset => by cases hreset
      refine ⟨m, ?_, h.length_eq, h.length_symbols, h.slot⟩
      by_cases hlt : position < length
      · rw [MappingCall.answer, if_pos hlt]
        exact hufSymbolMappingGet_eq (by rw [h.length_eq]; exact hlt) (h.slot position hlt)
      · rw [MappingCall.answer, if_neg hlt]
        exact MappingCall.run_refused hslots rfl (by rw [h.length_eq]; omega)
  | reset =>
      have hreset := hufSymbolMappingFreeElements_eq (h.length_symbols.trans h.length_eq.symm)
      rw [h.length_eq] at hreset
      have hnew := latest_new length
      exact ⟨_, Routine.bind_of_ok hreset, rfl, hnew.length_symbols, hnew.slot⟩

/-- A run of a mapping with slots, or of resets. -/
theorem runMapping_latest (h : Latest length earlier m) (calls : List MappingCall)
    (hlength : length ≠ 0 ∨ ∀ call ∈ calls, call = .reset) :
    ∃ m', runMapping calls m = .ok (mapAnswers length earlier calls, m') := by
  induction calls generalizing earlier m with
  | nil => exact ⟨m, rfl⟩
  | cons call calls ih =>
      obtain ⟨m₁, hrun, h₁⟩ := MappingCall.run_latest h call
        (hlength.imp_right fun hreset => hreset call List.mem_cons_self)
      obtain ⟨m₂, hrest⟩ := ih h₁
        (hlength.imp_right fun hreset c hc => hreset c (List.mem_cons_of_mem _ hc))
      refine ⟨m₂, ?_⟩
      simp only [runMapping, hrun, hrest, mapAnswers]

/-- Without slots, the check lets every position pass and the access is a fault. -/
theorem MappingCall.run_fault {call : MappingCall} {position : ℕ}
    (hcall : call.position = some position) (hsize : position ≤ sizeMax) :
    call.run ⟨0, []⟩ = .error .outOfBounds := by
  have hcheck : requirePosition position ⟨0, []⟩ = .ok (.ok (), ⟨0, []⟩) := by
    have hwrap : sizeSub 0 1 = sizeMax := rfl
    have hpass : ¬ position > sizeSub (⟨0, []⟩ : HufSymbolMapping).length 1 := by
      rw [hwrap]
      exact Nat.not_lt.mpr hsize
    rw [requirePosition, Routine.get_bind_apply, if_neg hpass]
    rfl
  cases call with
  | insert p element =>
      cases hcall
      apply Routine.bind_of_fault
      exact Routine.bind_of_ok hcheck
  | get p =>
      cases hcall
      exact Routine.bind_of_ok hcheck
  | reset => cases hcall

/-- A mapping without slots can only be reset. -/
theorem runMapping_empty {calls : List MappingCall}
    (hsize : ∀ call ∈ calls, ∀ position, call.position = some position → position ≤ sizeMax)
    {answers : List MappingAnswer} {m' : HufSymbolMapping}
    (h : runMapping calls ⟨0, []⟩ = .ok (answers, m')) : ∀ call ∈ calls, call = .reset := by
  induction calls generalizing answers m' with
  | nil => simp
  | cons call calls ih =>
      cases hposition : call.position with
      | some position =>
          have hfault := MappingCall.run_fault hposition
            (hsize call List.mem_cons_self position hposition)
          simp only [runMapping, hfault] at h
          cases h
      | none =>
          obtain rfl : call = .reset := by
            cases call with
            | insert p element => cases hposition
            | get p => cases hposition
            | reset => rfl
          have hreset : MappingCall.run .reset ⟨0, []⟩ = .ok (.ok none, ⟨0, []⟩) :=
            Routine.bind_of_ok (hufSymbolMappingFreeElements_eq (m := ⟨0, []⟩) rfl)
          simp only [runMapping, hreset] at h
          split at h
          · cases h
          · intro c hc
            rcases List.mem_cons.mp hc with rfl | hc
            · rfl
            · exact ih (fun c hc => hsize c (List.mem_cons_of_mem _ hc)) ‹_› c hc

end

/-! ## Every mapping that was created -/

/-- An initialization that succeeds creates an empty mapping. -/
theorem hufSymbolMappingInit_object {length : ℕ} {c c' : Creation HufSymbolMapping}
    (h : hufSymbolMappingInit length c = .ok (.ok (), c')) :
    c'.object = some ⟨length, List.replicate length none⟩ := by
  rcases Routine.bind_eq_ok h with ⟨_, c₁, -, h⟩
  rcases Routine.bind_eq_ok h with ⟨_, c₂, -, h⟩
  rcases Routine.bind_eq_ok h with ⟨_, c₃, -, h⟩
  cases h
  rfl

/-- A created mapping is a bounded map in a run exactly if it has slots, or the run only
resets it. -/
theorem hufSymbolMappingInit_boundedMap {length : ℕ} {c c' : Creation HufSymbolMapping}
    (hinit : hufSymbolMappingInit length c = .ok (.ok (), c')) (calls : List MappingCall)
    (hsize : ∀ call ∈ calls, ∀ position, call.position = some position → position ≤ sizeMax) :
    ∃ m, c'.object = some m ∧
      (BoundedMap length calls m ↔ length ≠ 0 ∨ ∀ call ∈ calls, call = .reset) := by
  refine ⟨_, hufSymbolMappingInit_object hinit, ?_⟩
  apply Iff.intro
  case mp =>
    intro h
    by_cases hzero : length = 0
    · subst hzero
      rcases h.answers with ⟨m', hrun⟩
      exact Or.inr (runMapping_empty hsize hrun)
    · exact Or.inl hzero
  case mpr =>
    intro h
    refine ⟨runMapping_latest (latest_new length) calls h, ?_⟩
    intro call hcall position hposition hle symbols
    rcases h with hlength | hreset
    · exact MappingCall.run_refused hlength hposition hle
    · rw [hreset call hcall] at hposition
      cases hposition

/-- An insert out of range of one slot and the insert that is found. -/
theorem hufSymbolMappingInit_boundedMap_one :
    ∃ m, some (⟨1, [none]⟩ : HufSymbolMapping) = some m ∧
      (BoundedMap 1 [.insert 1 ⟨1, [48, 0]⟩, .insert 0 ⟨1, [49, 0]⟩, .get 0] m ↔
        1 ≠ 0 ∨ ∀ call ∈ [MappingCall.insert 1 ⟨1, [48, 0]⟩, .insert 0 ⟨1, [49, 0]⟩, .get 0],
          call = .reset) := by
  have hinit : hufSymbolMappingInit 1 ⟨none, []⟩ = .ok (.ok (), ⟨some ⟨1, [none]⟩, []⟩) := rfl
  apply hufSymbolMappingInit_boundedMap hinit
  simp [MappingCall.position, sizeMax]

/-- Without slots, a position that is out of range is not refused. -/
theorem hufSymbolMapping_empty_get :
    hufSymbolMappingInit 0 ⟨none, []⟩ = .ok (.ok (), ⟨some ⟨0, []⟩, []⟩) ∧
      ¬ BoundedMap 0 [.get 0] ⟨0, []⟩ := by
  refine ⟨rfl, fun h => ?_⟩
  rcases h.answers with ⟨m', hrun⟩
  cases hrun

end LibHuffman
