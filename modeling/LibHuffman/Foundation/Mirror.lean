/-
# Runs on other objects

A routine that is written once for many kinds of objects does the same on all of them, as
far as these answer alike. A run mirrors another one if it ends with the same fault, the
same code or the same value and with related objects, unless it meets one of the faults that
it may meet alone. Every construct of a routine keeps this relation, so a generic routine
mirrors itself as soon as the few operations do that depend on the kind of its objects.
-/

import LibHuffman.Foundation.Calls
import LibHuffman.Foundation.Tie

namespace LibHuffman.Foundation

variable {φ ε σ τ γ δ α β : Type}

/-- The first outcome is a stray fault, or both are the same. `R` relates the objects that
are left, and `V` holds of the value. -/
inductive Alike (Stray : φ → Prop) (R : σ → τ → Prop) (V : α → Prop) :
    Outcome φ ε σ α → Outcome φ ε τ α → Prop
  | stray {fault : φ} {other : Outcome φ ε τ α} (h : Stray fault) :
      Alike Stray R V (.error fault) other
  | fault (fault : φ) : Alike Stray R V (.error fault) (.error fault)
  | leave {r : Except ε α} {s : σ} {t : τ} (hvalue : ∀ a, r = .ok a → V a) (h : R s t) :
      Alike Stray R V (.ok (r, s)) (.ok (r, t))

/-- From related objects, the two routines end alike. -/
def Mirrors (Stray : φ → Prop) (R : σ → τ → Prop) (x : Routine φ ε σ α) (y : Routine φ ε τ α)
    (V : α → Prop) : Prop :=
  ∀ s t, R s t → Alike Stray R V (x s) (y t)

/-- Two places, in collections that are related by `R`, of objects that are related by `S`:
none of the two can be followed, or both lead to such objects, and replacing these by others
keeps the collections related. -/
def Corresponds (place : Place φ σ γ) (place' : Place φ τ δ) (R : σ → τ → Prop)
    (S : γ → δ → Prop) : Prop :=
  ∀ s t, R s t →
    (∃ fault, place.load s = .error fault ∧ place'.load t = .error fault) ∨
      ∃ c d, place.load s = .ok c ∧ place'.load t = .ok d ∧ S c d ∧
        ∀ c d, S c d → R (place.store c s) (place'.store d t)

variable {Stray : φ → Prop} {R : σ → τ → Prop} {S : γ → δ → Prop} {V : α → Prop}
  {W : β → Prop}

/-! ## Outcomes -/

namespace Alike

variable {outcome : Outcome φ ε σ α} {other : Outcome φ ε τ α}

theorem mono {R' : σ → τ → Prop} {V' : α → Prop} (h : Alike Stray R V outcome other)
    (hR : ∀ s t, R s t → R' s t) (hV : ∀ a, V a → V' a) : Alike Stray R' V' outcome other := by
  cases h with
  | stray hs => exact .stray hs
  | fault fault => exact .fault fault
  | leave hvalue hr => exact .leave (fun a ha => hV a (hvalue a ha)) (hR _ _ hr)

/-- Where the second run leaves with something, the first one leaves with the same. -/
theorem eq_ok {r : Except ε α} {t : τ} (h : Alike Stray R V outcome (.ok (r, t))) :
    (∃ fault, Stray fault ∧ outcome = .error fault) ∨ ∃ s, outcome = .ok (r, s) ∧ R s t := by
  cases h with
  | stray hs => exact .inl ⟨_, hs, rfl⟩
  | leave _ hr => exact .inr ⟨_, rfl, hr⟩

/-- What follows a value may leave other objects than an error does. -/
theorem bind {R' : σ → τ → Prop} {x : Routine φ ε σ α} {y : Routine φ ε τ α}
    {f : α → Routine φ ε σ β} {g : α → Routine φ ε τ β} {s : σ} {t : τ}
    (h : Alike Stray R V (x s) (y t)) (herror : ∀ s t, R s t → R' s t)
    (hnext : ∀ a s t, V a → R s t → Alike Stray R' W (f a s) (g a t)) :
    Alike Stray R' W ((x >>= f) s) ((y >>= g) t) := by
  generalize hx : x s = outcome at h
  generalize hy : y t = other at h
  cases h with
  | stray hs =>
      rw [Routine.bind_of_fault hx]
      exact .stray hs
  | fault fault =>
      rw [Routine.bind_of_fault hx, Routine.bind_of_fault hy]
      exact .fault fault
  | @leave r s' t' hvalue hr =>
      cases r with
      | error code =>
          rw [Routine.bind_of_error hx, Routine.bind_of_error hy]
          exact .leave (fun _ ha => by cases ha) (herror s' t' hr)
      | ok a =>
          rw [Routine.bind_of_ok hx, Routine.bind_of_ok hy]
          exact hnext a s' t' (hvalue a rfl) hr

/-- What follows mirrors itself. -/
theorem bind_mirrors {x : Routine φ ε σ α} {y : Routine φ ε τ α} {f : α → Routine φ ε σ β}
    {g : α → Routine φ ε τ β} {s : σ} {t : τ} (h : Alike Stray R V (x s) (y t))
    (hnext : ∀ a, V a → Mirrors Stray R (f a) (g a) W) :
    Alike Stray R W ((x >>= f) s) ((y >>= g) t) :=
  h.bind (fun _ _ hr => hr) fun a s t ha hr => hnext a ha s t hr

/-- Runs on one object of a larger collection. -/
theorem within {σ' τ' : Type} {place : Place φ σ' σ} {place' : Place φ τ' τ}
    {R' : σ' → τ' → Prop} {x : Routine φ ε σ α} {y : Routine φ ε τ α} {s : σ} {t : τ} {s' : σ'}
    {t' : τ'} (h : Alike Stray R V (x s) (y t)) (hload : place.load s' = .ok s)
    (hload' : place'.load t' = .ok t)
    (hstore : ∀ s t, R s t → R' (place.store s s') (place'.store t t')) :
    Alike Stray R' V (Routine.within place x s') (Routine.within place' y t') := by
  generalize hx : x s = outcome at h
  generalize hy : y t = other at h
  cases h with
  | stray hs =>
      rw [Routine.within_of_fault hload hx]
      exact .stray hs
  | fault fault =>
      rw [Routine.within_of_fault hload hx, Routine.within_of_fault hload' hy]
      exact .fault fault
  | leave hvalue hr =>
      rw [Routine.within_of_ok hload hx, Routine.within_of_ok hload' hy]
      exact .leave hvalue (hstore _ _ hr)

theorem ite {p : Prop} [Decidable p] {x x' : Routine φ ε σ α} {y y' : Routine φ ε τ α} {s : σ}
    {t : τ} (h : p → Alike Stray R V (x s) (y t)) (h' : ¬ p → Alike Stray R V (x' s) (y' t)) :
    Alike Stray R V ((if p then x else x') s) ((if p then y else y') t) := by
  split
  · exact h ‹p›
  · exact h' ‹¬ p›

theorem ensuring {x : Routine φ ε σ α} {y : Routine φ ε τ α} {cleanup : Routine φ ε σ β}
    {cleanup' : Routine φ ε τ β} {s : σ} {t : τ} (h : Alike Stray R V (x s) (y t))
    (hcleanup : Mirrors Stray R cleanup cleanup' W) :
    Alike Stray R V (Routine.ensuring x cleanup s) (Routine.ensuring y cleanup' t) := by
  generalize hx : x s = outcome at h
  generalize hy : y t = other at h
  cases h with
  | stray hs =>
      rw [Routine.ensuring_of_fault hx]
      exact .stray hs
  | fault fault =>
      rw [Routine.ensuring_of_fault hx, Routine.ensuring_of_fault hy]
      exact .fault fault
  | @leave r s' t' hvalue hr' =>
      have hclean := hcleanup s' t' hr'
      generalize hc : cleanup s' = cleaned at hclean
      generalize hc' : cleanup' t' = cleaned' at hclean
      cases hclean with
      | stray hs =>
          rw [Routine.ensuring_of_cleanup_fault hx hc]
          exact .stray hs
      | fault fault =>
          rw [Routine.ensuring_of_cleanup_fault hx hc, Routine.ensuring_of_cleanup_fault hy hc']
          exact .fault fault
      | leave _ hr'' =>
          rw [Routine.ensuring_of_ok hx hc, Routine.ensuring_of_ok hy hc']
          exact .leave hvalue hr''

end Alike

/-! ## Constructs -/

namespace Mirrors

/-- A routine mirrors itself on the same objects. -/
theorem refl (x : Routine φ ε σ α) : Mirrors Stray Eq x x fun _ => True := by
  rintro s _ rfl
  rcases x s with fault | ⟨r, s'⟩
  · exact .fault fault
  · exact .leave (fun _ _ => trivial) rfl

theorem pure {a : α} (ha : V a) :
    Mirrors Stray R (Pure.pure a : Routine φ ε σ α) (Pure.pure a) V := by
  intro s t hr
  apply Alike.leave
  · rintro _ ⟨⟩
    exact ha
  · exact hr

theorem fail (code : ε) :
    Mirrors Stray R (Routine.fail code : Routine φ ε σ α) (Routine.fail code) V :=
  fun _ _ hr => .leave (fun _ ha => by cases ha) hr

theorem modify {change : σ → σ} {change' : τ → τ} (h : ∀ s t, R s t → R (change s) (change' t)) :
    Mirrors Stray R (Routine.modify change : Routine φ ε σ Unit) (Routine.modify change')
      fun _ => True :=
  fun s t hr => .leave (fun _ _ => trivial) (h s t hr)

theorem demand {value : Except φ α} (h : ∀ a, value = .ok a → V a) :
    Mirrors Stray R (Routine.demand value : Routine φ ε σ α) (Routine.demand value) V := by
  intro s t hr
  cases value with
  | error fault => exact .fault fault
  | ok a =>
      apply Alike.leave
      · rintro _ ⟨⟩
        exact h a rfl
      · exact hr

/-- One after the other. -/
theorem bind {x : Routine φ ε σ α} {y : Routine φ ε τ α} {f : α → Routine φ ε σ β}
    {g : α → Routine φ ε τ β} (h : Mirrors Stray R x y V)
    (hnext : ∀ a, V a → Mirrors Stray R (f a) (g a) W) :
    Mirrors Stray R (x >>= f) (y >>= g) W :=
  fun s t hr => (h s t hr).bind_mirrors hnext

/-- Both runs go on with a value that they compute from the same data. -/
theorem demand_bind {value : Except φ α} {f : α → Routine φ ε σ β} {g : α → Routine φ ε τ β}
    (h : ∀ a, value = .ok a → Mirrors Stray R (f a) (g a) W) :
    Mirrors Stray R (Routine.demand value >>= f) (Routine.demand value >>= g) W := by
  cases value with
  | error fault => exact fun _ _ _ => .fault fault
  | ok a => exact h a rfl

/-- Both runs go on with what they find in all of their objects. -/
theorem get_bind {f : σ → Routine φ ε σ β} {g : τ → Routine φ ε τ β}
    (h : ∀ s t, R s t → Mirrors Stray R (f s) (g t) W) :
    Mirrors Stray R (Routine.get >>= f) (Routine.get >>= g) W :=
  fun s t hr => h s t hr s t hr

theorem ite {p : Prop} [Decidable p] {x x' : Routine φ ε σ α} {y y' : Routine φ ε τ α}
    (h : p → Mirrors Stray R x y V) (h' : ¬ p → Mirrors Stray R x' y' V) :
    Mirrors Stray R (if p then x else x') (if p then y else y') V :=
  fun s t hr => Alike.ite (fun hp => h hp s t hr) fun hp => h' hp s t hr

section Places

variable {place : Place φ σ γ} {place' : Place φ τ δ}

/-- Runs on one object of a larger collection. -/
theorem within {x : Routine φ ε γ α} {y : Routine φ ε δ α}
    (hplace : Corresponds place place' R S) (h : Mirrors Stray S x y V) :
    Mirrors Stray R (Routine.within place x) (Routine.within place' y) V := by
  intro s t hr
  rcases hplace s t hr with ⟨fault, hload, hload'⟩ | ⟨c, d, hload, hload', hcd, hstore⟩
  · simp only [Routine.within, hload, hload']
    exact .fault fault
  · exact (h c d hcd).within hload hload' hstore

/-- Both runs go on with an object that they read. -/
theorem read_bind {f : γ → Routine φ ε σ β} {g : δ → Routine φ ε τ β}
    (hplace : Corresponds place place' R S)
    (h : ∀ c d, S c d → Mirrors Stray R (f c) (g d) W) :
    Mirrors Stray R (Routine.within place Routine.get >>= f)
      (Routine.within place' Routine.get >>= g) W := by
  intro s t hr
  rcases hplace s t hr with ⟨fault, hload, hload'⟩ | ⟨c, d, hload, hload', hcd, hstore⟩
  · rw [Routine.within_get_bind_fault hload, Routine.within_get_bind_fault hload']
    exact .fault fault
  · rw [Routine.bind_of_ok (Routine.within_of_ok hload rfl),
      Routine.bind_of_ok (Routine.within_of_ok hload' rfl)]
    exact h c d hcd _ _ (hstore c d hcd)

end Places

theorem ensuring {x : Routine φ ε σ α} {y : Routine φ ε τ α} {cleanup : Routine φ ε σ β}
    {cleanup' : Routine φ ε τ β} (h : Mirrors Stray R x y V)
    (hcleanup : Mirrors Stray R cleanup cleanup' W) :
    Mirrors Stray R (Routine.ensuring x cleanup) (Routine.ensuring y cleanup') V :=
  fun s t hr => (h s t hr).ensuring hcleanup

/-- Both runs own one more object for their time. -/
theorem withLocal {ι κ : Type} {first : ι} {second : κ} {x : Routine φ ε (ι × σ) α}
    {y : Routine φ ε (κ × τ) α} {L : ι → κ → Prop} (hfirst : L first second)
    (h : Mirrors Stray (fun s t => L s.1 t.1 ∧ R s.2 t.2) x y V) :
    Mirrors Stray R (Routine.withLocal first x) (Routine.withLocal second y) V := by
  intro s t hr
  have halike := h (first, s) (second, t) ⟨hfirst, hr⟩
  generalize hx : x (first, s) = outcome at halike
  generalize hy : y (second, t) = other at halike
  cases halike with
  | stray hs =>
      rw [Routine.withLocal_of_fault hx]
      exact .stray hs
  | fault fault =>
      rw [Routine.withLocal_of_fault hx, Routine.withLocal_of_fault hy]
      exact .fault fault
  | leave hvalue hr' =>
      rw [Routine.withLocal_of_ok hx, Routine.withLocal_of_ok hy]
      exact .leave hvalue hr'.2

/-- Two loops whose tests and iterations mirror each other. `V` holds of the locals before
every test. -/
theorem whileLoop {endless : φ} {cond : α → Routine φ ε σ Bool} {cond' : α → Routine φ ε τ Bool}
    {body : α → Routine φ ε σ (LoopStep α)} {body' : α → Routine φ ε τ (LoopStep α)}
    (hcond : ∀ a, V a → Mirrors Stray R (cond a) (cond' a) fun _ => True)
    (hbody : ∀ a, V a → Mirrors Stray R (body a) (body' a) fun step => V step.locals)
    (fuel : ℕ) {a : α} (ha : V a) :
    Mirrors Stray R (Routine.whileLoop endless cond body fuel a)
      (Routine.whileLoop endless cond' body' fuel a) V := by
  induction fuel generalizing a with
  | zero => exact fun _ _ _ => .fault endless
  | succ fuel ih =>
      apply (hcond a ha).bind
      intro go _
      cases go with
      | false => exact pure ha
      | true =>
          apply (hbody a ha).bind
          intro step hstep
          cases step with
          | next a' => exact ih hstep
          | leave a' => exact pure hstep

/-- A routine on every element of a list. -/
theorem forM {f : β → Routine φ ε σ Unit} {g : β → Routine φ ε τ Unit} (xs : List β)
    (h : ∀ b ∈ xs, Mirrors Stray R (f b) (g b) fun _ => True) :
    Mirrors Stray R (xs.forM f) (xs.forM g) fun _ => True := by
  induction xs with
  | nil => exact pure trivial
  | cons b xs ih =>
      apply (h b List.mem_cons_self).bind
      intro _ _
      exact ih fun b hb => h b (List.mem_cons_of_mem _ hb)

end Mirrors

/-! ## Runs of calls -/

/-- Two runs of the same calls end alike, if every one of these calls does from related
objects. -/
theorem runCalls_alike {κ : Type} {run : κ → Routine φ ε σ α} {run' : κ → Routine φ ε τ α}
    {calls : List κ} (h : ∀ call ∈ calls, Mirrors Stray R (run call) (run' call) V) {s : σ} {t : τ}
    (hr : R s t) :
    (∃ fault, Stray fault ∧ runCalls run calls s = .error fault) ∨
      (∃ fault, runCalls run calls s = .error fault ∧ runCalls run' calls t = .error fault) ∨
      ∃ rs s' t', runCalls run calls s = .ok (rs, s') ∧ runCalls run' calls t = .ok (rs, t') ∧
        R s' t' := by
  induction calls generalizing s t with
  | nil => exact .inr (.inr ⟨[], s, t, rfl, rfl, hr⟩)
  | cons call calls ih =>
      rcases List.forall_mem_cons.mp h with ⟨hfirst, hlater⟩
      have halike := hfirst s t hr
      generalize hx : run call s = outcome at halike
      generalize hy : run' call t = other at halike
      cases halike with
      | stray hs => exact .inl ⟨_, hs, runCalls_cons_of_fault hx calls⟩
      | fault fault =>
          have hrun := runCalls_cons_of_fault hx calls
          exact .inr (.inl ⟨fault, hrun, runCalls_cons_of_fault hy calls⟩)
      | leave _ hr' =>
          rw [runCalls_cons hx, runCalls_cons hy]
          rcases ih hlater hr' with ⟨fault, hs, hrun⟩ | ⟨fault, hrun, hrun'⟩ |
            ⟨rs, s', t', hrun, hrun', hr''⟩
          · exact .inl ⟨fault, hs, by rw [hrun]; rfl⟩
          · exact .inr (.inl ⟨fault, by rw [hrun]; rfl, by rw [hrun']; rfl⟩)
          · exact .inr (.inr ⟨_, s', t', by rw [hrun]; rfl, by rw [hrun']; rfl, hr''⟩)

end LibHuffman.Foundation
