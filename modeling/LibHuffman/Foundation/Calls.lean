/-
# Runs of calls

The user of an object makes one call after the other, in any order, and goes on where a call
leaves with a code. What the object is for is said by a machine that answers every call at once;
a routine refines it if every call answers as the machine does and keeps the two related. The
relation may speak of the calls still to come, so that it can rule out those that go wrong.
-/

import LibHuffman.Foundation.Routine

namespace LibHuffman.Foundation

variable {φ ε σ α κ τ : Type}

/-- Make the calls one after the other, whatever they leave with, and list what they leave
with. -/
def runCalls (run : κ → Routine φ ε σ α) : List κ → σ → Except φ (List (Except ε α) × σ)
  | [], s => .ok ([], s)
  | call :: calls, s => do
    let (r, s) ← run call s
    let (rs, s) ← runCalls run calls s
    return (r :: rs, s)

/-- What a machine answers to the calls, and where they leave it. -/
def answerCalls (answer : κ → τ → Except ε α × τ) : List κ → τ → List (Except ε α) × τ
  | [], t => ([], t)
  | call :: calls, t =>
    let (r, t) := answer call t
    let (rs, t) := answerCalls answer calls t
    (r :: rs, t)

section

variable {run : κ → Routine φ ε σ α} {answer : κ → τ → Except ε α × τ}

theorem runCalls_cons {call : κ} {s s' : σ} {r : Except ε α} (h : run call s = .ok (r, s'))
    (calls : List κ) :
    runCalls run (call :: calls) s = (runCalls run calls s').map fun p => (r :: p.1, p.2) := by
  rw [runCalls, h]
  show (do let (rs, s) ← runCalls run calls s'; return (r :: rs, s)) = _
  cases runCalls run calls s' <;> rfl

/-- A call that does not end is the last one. -/
theorem runCalls_cons_of_fault {call : κ} {s : σ} {fault : φ} (h : run call s = .error fault)
    (calls : List κ) : runCalls run (call :: calls) s = .error fault := by
  rw [runCalls, h]
  rfl

/-- A run that ends makes its calls one after the other. -/
theorem runCalls_cons_eq_ok {call : κ} {calls : List κ} {s s' : σ} {rs : List (Except ε α)}
    (h : runCalls run (call :: calls) s = .ok (rs, s')) :
    ∃ r s₁ rs', run call s = .ok (r, s₁) ∧ runCalls run calls s₁ = .ok (rs', s') ∧
      rs = r :: rs' := by
  cases hcall : run call s with
  | error fault =>
      rw [runCalls_cons_of_fault hcall] at h
      cases h
  | ok p =>
      rcases p with ⟨r, s₁⟩
      rw [runCalls_cons hcall] at h
      cases hrest : runCalls run calls s₁ with
      | error fault =>
          rw [hrest] at h
          cases h
      | ok q =>
          rw [hrest] at h
          cases h
          exact ⟨r, s₁, q.1, rfl, hrest, rfl⟩

/-- Every call is answered. -/
theorem length_of_runCalls {calls : List κ} {s s' : σ} {rs : List (Except ε α)}
    (h : runCalls run calls s = .ok (rs, s')) : rs.length = calls.length := by
  induction calls generalizing s rs with
  | nil =>
      cases h
      rfl
  | cons call calls ih =>
      rcases runCalls_cons_eq_ok h with ⟨r, s₁, rs', -, hrest, rfl⟩
      simp [ih hrest]

/-- A run that ends was made in two parts. -/
theorem runCalls_append_eq_ok {before after : List κ} {s s' : σ} {rs : List (Except ε α)}
    (h : runCalls run (before ++ after) s = .ok (rs, s')) :
    ∃ rs₁ s₁ rs₂, runCalls run before s = .ok (rs₁, s₁) ∧
      runCalls run after s₁ = .ok (rs₂, s') ∧ rs = rs₁ ++ rs₂ := by
  induction before generalizing s rs with
  | nil => exact ⟨[], s, rs, rfl, h, rfl⟩
  | cons call before ih =>
      rcases runCalls_cons_eq_ok h with ⟨r, s₁, rs', hcall, hrest, rfl⟩
      rcases ih hrest with ⟨rs₁, s₂, rs₂, hbefore, hafter, rfl⟩
      refine ⟨r :: rs₁, s₂, rs₂, ?_, hafter, rfl⟩
      rw [runCalls_cons hcall, hbefore]
      rfl

/-- Where every call leaves the object as it is, so does a run. -/
theorem runCalls_of_fixed {reply : κ → Except ε α} {s : σ}
    (h : ∀ call, run call s = .ok (reply call, s)) (calls : List κ) :
    runCalls run calls s = .ok (calls.map reply, s) := by
  induction calls with
  | nil => rfl
  | cons call calls ih =>
      rw [runCalls_cons (h call), ih]
      rfl

/-- Every call answers as the machine does, and keeps the two related. -/
def Refines (Rel : List κ → τ → σ → Prop) (run : κ → Routine φ ε σ α)
    (answer : κ → τ → Except ε α × τ) : Prop :=
  ∀ call calls t s, Rel (call :: calls) t s →
    ∃ s', run call s = .ok ((answer call t).1, s') ∧ Rel calls (answer call t).2 s'

/-- A run answers as the machine does. -/
theorem Refines.runCalls {Rel : List κ → τ → σ → Prop} (h : Refines Rel run answer)
    {calls : List κ} {t : τ} {s : σ} (hrel : Rel calls t s) :
    ∃ s', runCalls run calls s = .ok ((answerCalls answer calls t).1, s') ∧
      Rel [] (answerCalls answer calls t).2 s' := by
  induction calls generalizing t s with
  | nil => exact ⟨s, rfl, hrel⟩
  | cons call calls ih =>
      rcases h call calls t s hrel with ⟨s₁, hcall, hrel₁⟩
      rcases ih hrel₁ with ⟨s', hrest, hend⟩
      refine ⟨s', ?_, hend⟩
      rw [runCalls_cons hcall, hrest]
      rfl

end

end LibHuffman.Foundation
