/-
# Runs that follow each other

Two runs of a routine, or of two routines over different objects, often differ in
what no result depends on. A run follows another one if both end in the same way
with related objects, unless the first one stops before, with a code that `Stop`
allows. Every construct of a routine keeps this relation; so a routine is walked
through once, and what differs is dealt with where it is used.
-/

import LibHuffman.Foundation.Routine

namespace LibHuffman.Foundation

variable {φ ε σ τ α β : Type}

/-- The first outcome is a stop, or both are the same: faults, error codes with
objects related by `E`, or values with objects related by `Q`. -/
inductive Follows (Stop : ε → σ → Prop) (E : ε → σ → τ → Prop) (Q : α → σ → τ → Prop) :
    Outcome φ ε σ α → Outcome φ ε τ α → Prop
  | stop {code : ε} {s : σ} {other : Outcome φ ε τ α} (h : Stop code s) :
      Follows Stop E Q (.ok (.error code, s)) other
  | fault (fault : φ) : Follows Stop E Q (.error fault) (.error fault)
  | error {code : ε} {s : σ} {t : τ} (h : E code s t) :
      Follows Stop E Q (.ok (.error code, s)) (.ok (.error code, t))
  | value {a : α} {s : σ} {t : τ} (h : Q a s t) :
      Follows Stop E Q (.ok (.ok a, s)) (.ok (.ok a, t))

namespace Follows

variable {Stop : ε → σ → Prop} {E : ε → σ → τ → Prop} {Q : α → σ → τ → Prop} {s : σ} {t : τ}

/-! ## Consequences -/

/-- A run that ends with a value is followed to that value. -/
theorem value_right {a : α} {s' : σ} {other : Outcome φ ε τ α}
    (h : Follows Stop E Q (.ok (.ok a, s')) other) : ∃ t', other = .ok (.ok a, t') ∧ Q a s' t' := by
  cases h with
  | value hq => exact ⟨_, rfl, hq⟩

/-- A run that ends with a code, other than a stop, is followed to that code. -/
theorem error_right {code : ε} {s' : σ} {other : Outcome φ ε τ α}
    (h : Follows Stop E Q (.ok (.error code, s')) other) (hstop : ¬ Stop code s') :
    ∃ t', other = .ok (.error code, t') ∧ E code s' t' := by
  cases h with
  | stop hs => exact absurd hs hstop
  | error he => exact ⟨_, rfl, he⟩

theorem mono {Stop' : ε → σ → Prop} {E' : ε → σ → τ → Prop} {Q' : α → σ → τ → Prop}
    {outcome : Outcome φ ε σ α} {other : Outcome φ ε τ α} (h : Follows Stop E Q outcome other)
    (hstop : ∀ code s, Stop code s → Stop' code s)
    (herror : ∀ code s t, E code s t → E' code s t) (hvalue : ∀ a s t, Q a s t → Q' a s t) :
    Follows Stop' E' Q' outcome other := by
  cases h with
  | stop hs => exact .stop (hstop _ _ hs)
  | fault fault => exact .fault fault
  | error he => exact .error (herror _ _ _ he)
  | value hq => exact .value (hvalue _ _ _ hq)

/-! ## Constructs -/

theorem pure {a : α} (h : Q a s t) :
    Follows Stop E Q ((Pure.pure a : Routine φ ε σ α) s) ((Pure.pure a : Routine φ ε τ α) t) :=
  .value h

/-- Both runs need the same value. -/
theorem demand (value : Except φ α) (h : ∀ a, value = .ok a → Q a s t) :
    Follows Stop E Q ((Routine.demand value : Routine φ ε σ α) s)
      ((Routine.demand value : Routine φ ε τ α) t) := by
  cases value with
  | error fault => exact .fault fault
  | ok a => exact .value (h a rfl)

/-- One after the other. -/
theorem bind {x : Routine φ ε σ α} {y : Routine φ ε τ α} {f : α → Routine φ ε σ β}
    {g : α → Routine φ ε τ β} {Q' : β → σ → τ → Prop} (h : Follows Stop E Q (x s) (y t))
    (hnext : ∀ a s' t', Q a s' t' → Follows Stop E Q' (f a s') (g a t')) :
    Follows Stop E Q' ((x >>= f) s) ((y >>= g) t) := by
  generalize hx : x s = outcome at h
  generalize hy : y t = other at h
  cases h with
  | stop hs =>
      rw [Routine.bind_of_error hx]
      exact .stop hs
  | fault fault =>
      rw [Routine.bind_of_fault hx, Routine.bind_of_fault hy]
      exact .fault fault
  | error he =>
      rw [Routine.bind_of_error hx, Routine.bind_of_error hy]
      exact .error he
  | value hq =>
      rw [Routine.bind_of_ok hx, Routine.bind_of_ok hy]
      exact hnext _ _ _ hq

/-- Both runs go on with a value that they compute from the same data. -/
theorem demand_bind {value : Except φ α} {f : α → Routine φ ε σ β} {g : α → Routine φ ε τ β}
    {Q' : β → σ → τ → Prop} (hnext : ∀ a, Follows Stop E Q' (f a s) (g a t)) :
    Follows Stop E Q' ((Routine.demand value >>= f) s) ((Routine.demand value >>= g) t) := by
  cases value with
  | error fault => exact .fault fault
  | ok a => exact hnext a

section Within

variable {σ' τ' : Type} {place : Place φ σ' σ} {place' : Place φ τ' τ} {s' : σ'} {t' : τ'}

/-- Runs on one object of a larger collection. -/
theorem within {Stop' : ε → σ' → Prop} {E' : ε → σ' → τ' → Prop} {Q' : α → σ' → τ' → Prop}
    {x : Routine φ ε σ α} {y : Routine φ ε τ α} (hload : place.load s' = .ok s)
    (hload' : place'.load t' = .ok t) (h : Follows Stop E Q (x s) (y t))
    (hstop : ∀ code s, Stop code s → Stop' code (place.store s s'))
    (herror : ∀ code s t, E code s t → E' code (place.store s s') (place'.store t t'))
    (hvalue : ∀ a s t, Q a s t → Q' a (place.store s s') (place'.store t t')) :
    Follows Stop' E' Q' (Routine.within place x s') (Routine.within place' y t') := by
  generalize hx : x s = outcome at h
  generalize hy : y t = other at h
  cases h with
  | stop hs =>
      rw [Routine.within_of_ok hload hx]
      exact .stop (hstop _ _ hs)
  | fault fault =>
      rw [Routine.within_of_fault hload hx, Routine.within_of_fault hload' hy]
      exact .fault fault
  | error he =>
      rw [Routine.within_of_ok hload hx, Routine.within_of_ok hload' hy]
      exact .error (herror _ _ _ he)
  | value hq =>
      rw [Routine.within_of_ok hload hx, Routine.within_of_ok hload' hy]
      exact .value (hvalue _ _ _ hq)

/-- The same routine on an object that is the same in both runs. -/
theorem within_same {place' : Place φ τ' σ} {Stop' : ε → σ' → Prop} {E' : ε → σ' → τ' → Prop}
    {Q' : α → σ' → τ' → Prop} {x : Routine φ ε σ α} (hload : place.load s' = .ok s)
    (hload' : place'.load t' = .ok s)
    (herror : ∀ code s₁, x s = .ok (.error code, s₁) →
      E' code (place.store s₁ s') (place'.store s₁ t'))
    (hvalue : ∀ a s₁, x s = .ok (.ok a, s₁) → Q' a (place.store s₁ s') (place'.store s₁ t')) :
    Follows Stop' E' Q' (Routine.within place x s') (Routine.within place' x t') := by
  match hx : x s with
  | .error broken =>
      rw [Routine.within_of_fault hload hx, Routine.within_of_fault hload' hx]
      exact .fault broken
  | .ok (.error code, s₁) =>
      rw [Routine.within_of_ok hload hx, Routine.within_of_ok hload' hx]
      exact .error (herror code s₁ hx)
  | .ok (.ok a, s₁) =>
      rw [Routine.within_of_ok hload hx, Routine.within_of_ok hload' hx]
      exact .value (hvalue a s₁ hx)

end Within

/-- A cleanup after an error, which must end without a fault where the first run
stops. -/
theorem onFailure {x : Routine φ ε σ α} {y : Routine φ ε τ α} {cleanup : Routine φ ε σ β}
    {cleanup' : Routine φ ε τ β} {Stop' : ε → σ → Prop} {E' : ε → σ → τ → Prop}
    (h : Follows Stop E Q (x s) (y t))
    (hstop : ∀ code s, Stop code s → ∃ q s', cleanup s = .ok (q, s') ∧ Stop' code s')
    (herror : ∀ code s t, E code s t → Follows (fun _ _ => False) (fun _ => E' code)
      (fun _ => E' code) (cleanup s) (cleanup' t)) :
    Follows Stop' E' Q (Routine.onFailure x cleanup s) (Routine.onFailure y cleanup' t) := by
  generalize hx : x s = outcome at h
  generalize hy : y t = other at h
  cases h with
  | stop hs =>
      rcases hstop _ _ hs with ⟨q, s', hclean, hs'⟩
      rw [Routine.onFailure_of_error hx hclean]
      exact .stop hs'
  | fault broken =>
      rw [Routine.onFailure_of_fault hx, Routine.onFailure_of_fault hy]
      exact .fault broken
  | value hq =>
      rw [Routine.onFailure_of_ok hx, Routine.onFailure_of_ok hy]
      exact .value hq
  | error he =>
      have hclean := herror _ _ _ he
      generalize hc : cleanup _ = cleaned at hclean
      generalize hc' : cleanup' _ = cleaned' at hclean
      cases hclean with
      | stop hs => exact hs.elim
      | fault broken =>
          rw [Routine.onFailure_of_error_fault hx hc, Routine.onFailure_of_error_fault hy hc']
          exact .fault broken
      | error he' =>
          rw [Routine.onFailure_of_error hx hc, Routine.onFailure_of_error hy hc']
          exact .error he'
      | value he' =>
          rw [Routine.onFailure_of_error hx hc, Routine.onFailure_of_error hy hc']
          exact .error he'

/-- A cleanup after everything, which must end without a fault where the first run
stops. -/
theorem ensuring {x : Routine φ ε σ α} {y : Routine φ ε τ α} {cleanup : Routine φ ε σ β}
    {cleanup' : Routine φ ε τ β} {Stop' : ε → σ → Prop} {E' : ε → σ → τ → Prop}
    {Q' : α → σ → τ → Prop} (h : Follows Stop E Q (x s) (y t))
    (hstop : ∀ code s, Stop code s → ∃ q s', cleanup s = .ok (q, s') ∧ Stop' code s')
    (herror : ∀ code s t, E code s t → Follows (fun _ _ => False) (fun _ => E' code)
      (fun _ => E' code) (cleanup s) (cleanup' t))
    (hvalue : ∀ a s t, Q a s t → Follows (fun _ _ => False) (fun _ => Q' a) (fun _ => Q' a)
      (cleanup s) (cleanup' t)) :
    Follows Stop' E' Q' (Routine.ensuring x cleanup s) (Routine.ensuring y cleanup' t) := by
  generalize hx : x s = outcome at h
  generalize hy : y t = other at h
  cases h with
  | stop hs =>
      rcases hstop _ _ hs with ⟨q, s', hclean, hs'⟩
      rw [Routine.ensuring_of_ok hx hclean]
      exact .stop hs'
  | fault broken =>
      rw [Routine.ensuring_of_fault hx, Routine.ensuring_of_fault hy]
      exact .fault broken
  | error he =>
      have hclean := herror _ _ _ he
      generalize hc : cleanup _ = cleaned at hclean
      generalize hc' : cleanup' _ = cleaned' at hclean
      cases hclean with
      | stop hs => exact hs.elim
      | fault broken =>
          rw [Routine.ensuring_of_cleanup_fault hx hc, Routine.ensuring_of_cleanup_fault hy hc']
          exact .fault broken
      | error he' =>
          rw [Routine.ensuring_of_ok hx hc, Routine.ensuring_of_ok hy hc']
          exact .error he'
      | value he' =>
          rw [Routine.ensuring_of_ok hx hc, Routine.ensuring_of_ok hy hc']
          exact .error he'
  | value hq =>
      have hclean := hvalue _ _ _ hq
      generalize hc : cleanup _ = cleaned at hclean
      generalize hc' : cleanup' _ = cleaned' at hclean
      cases hclean with
      | stop hs => exact hs.elim
      | fault broken =>
          rw [Routine.ensuring_of_cleanup_fault hx hc, Routine.ensuring_of_cleanup_fault hy hc']
          exact .fault broken
      | error hq' =>
          rw [Routine.ensuring_of_ok hx hc, Routine.ensuring_of_ok hy hc']
          exact .value hq'
      | value hq' =>
          rw [Routine.ensuring_of_ok hx hc, Routine.ensuring_of_ok hy hc']
          exact .value hq'

/-- One more object for the time of a run. -/
theorem withLocal {ι : Type} {init : ι} {x : Routine φ ε (ι × σ) α} {y : Routine φ ε (ι × τ) α}
    {Stop' : ε → σ → Prop} {E' : ε → σ → τ → Prop} {Q' : α → σ → τ → Prop}
    {StopIn : ε → ι × σ → Prop} {EIn : ε → ι × σ → ι × τ → Prop} {QIn : α → ι × σ → ι × τ → Prop}
    (h : Follows StopIn EIn QIn (x (init, s)) (y (init, t)))
    (hstop : ∀ code s, StopIn code s → Stop' code s.2)
    (herror : ∀ code s t, EIn code s t → E' code s.2 t.2)
    (hvalue : ∀ a s t, QIn a s t → Q' a s.2 t.2) :
    Follows Stop' E' Q' (Routine.withLocal init x s) (Routine.withLocal init y t) := by
  generalize hx : x (init, s) = outcome at h
  generalize hy : y (init, t) = other at h
  cases h with
  | stop hs =>
      rw [Routine.withLocal_of_ok hx]
      exact .stop (hstop _ _ hs)
  | fault broken =>
      rw [Routine.withLocal_of_fault hx, Routine.withLocal_of_fault hy]
      exact .fault broken
  | error he =>
      rw [Routine.withLocal_of_ok hx, Routine.withLocal_of_ok hy]
      exact .error (herror _ _ _ he)
  | value hq =>
      rw [Routine.withLocal_of_ok hx, Routine.withLocal_of_ok hy]
      exact .value (hvalue _ _ _ hq)

/-- Two loops whose tests and iterations follow each other. `Inv` holds before a
test and `Inside` before an iteration. -/
theorem whileLoop {endless : φ} {cond : α → Routine φ ε σ Bool} {cond' : α → Routine φ ε τ Bool}
    {body : α → Routine φ ε σ (LoopStep α)} {body' : α → Routine φ ε τ (LoopStep α)}
    (Inv Inside : α → σ → τ → Prop)
    (hcond : ∀ a s t, Inv a s t → Follows Stop E
      (fun go s t => if go then Inside a s t else Q a s t) (cond a s) (cond' a t))
    (hbody : ∀ a s t, Inside a s t → Follows Stop E
      (fun step s t => match step with
        | .next a => Inv a s t
        | .leave a => Q a s t) (body a s) (body' a t))
    (fuel : ℕ) {a : α} (h : Inv a s t) :
    Follows Stop E Q (Routine.whileLoop endless cond body fuel a s)
      (Routine.whileLoop endless cond' body' fuel a t) := by
  induction fuel generalizing a s t with
  | zero => exact .fault endless
  | succ fuel ih =>
      apply Follows.bind (hcond a s t h)
      intro go s₁ t₁ hgo
      cases go with
      | false => exact .value hgo
      | true =>
          apply Follows.bind (hbody a s₁ t₁ hgo)
          intro step s₂ t₂ hstep
          cases step with
          | next a' => exact ih hstep
          | leave a' => exact .value hstep

end Follows

end LibHuffman.Foundation
