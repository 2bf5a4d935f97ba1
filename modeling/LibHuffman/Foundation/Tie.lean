/-
# Runs that stop where another run goes on

A run on real streams does what the run on ideal ones does, until something fails that
cannot fail there. Then it stops, and the other run goes on alone. A tie says how the
objects of two runs are related while both run, after both have left with the same code,
and after the first one has stopped; what it says of the last case has to survive
whatever the second run still does.
-/

import LibHuffman.Foundation.Follows
import LibHuffman.Foundation.Triple

namespace LibHuffman.Foundation

variable {φ ε σ τ α β : Type}

/-- How the objects of two runs are related. -/
structure Tie (ε σ τ : Type) where
  /-- While both run. -/
  both : σ → τ → Prop
  /-- After both have left with the code. -/
  failed : ε → σ → τ → Prop
  /-- Where the first one has stopped with a code. -/
  stopped : ε → σ → Prop
  /-- After the first one has stopped with the code, while the second one goes on. -/
  alone : ε → σ → τ → Prop

/-- The locals that the body of a loop leaves. -/
def LoopStep.locals : LoopStep α → α
  | .next a => a
  | .leave a => a

namespace Tie

variable (T : Tie ε σ τ)

/-- The first outcome is that of a run that stopped, or both are the same. `V` holds of
the value. -/
inductive Ends (V : α → Prop) : Outcome φ ε σ α → Outcome φ ε τ α → Prop
  | stop {code : ε} {s : σ} {other : Outcome φ ε τ α} (hs : T.stopped code s)
      (hvalue : ∀ a t, other = .ok (.ok a, t) → V a ∧ T.alone code s t)
      (herror : ∀ code' t, other = .ok (.error code', t) → T.alone code s t) :
      Ends V (.ok (.error code, s)) other
  | fault (fault : φ) : Ends V (.error fault) (.error fault)
  | error {code : ε} {s : σ} {t : τ} (h : T.failed code s t) :
      Ends V (.ok (.error code, s)) (.ok (.error code, t))
  | value {a : α} {s : σ} {t : τ} (ha : V a) (h : T.both s t) :
      Ends V (.ok (.ok a, s)) (.ok (.ok a, t))

/-- From objects that are tied, the two routines end tied, and the second one keeps what
is left after the first one has stopped. -/
structure Joins (x : Routine φ ε σ α) (y : Routine φ ε τ α) (V : α → Prop) : Prop where
  together : ∀ s t, T.both s t → T.Ends V (x s) (y t)
  onward : ∀ code s, Triple (T.alone code s) y (fun a t => V a ∧ T.alone code s t)
    fun _ => T.alone code s

variable {T} {V : α → Prop} {W : β → Prop}

/-! ## Consequences -/

section

variable {outcome : Outcome φ ε σ α} {a : α} {code : ε} {t : τ}

/-- Where the second run ends with a value, the first one does too or has stopped. -/
theorem Ends.value_left (h : T.Ends V outcome (.ok (.ok a, t))) :
    (∃ s, outcome = .ok (.ok a, s) ∧ T.both s t) ∨
      ∃ code s, outcome = .ok (.error code, s) ∧ T.stopped code s ∧ T.alone code s t := by
  cases h with
  | stop hs hvalue _ => exact .inr ⟨_, _, rfl, hs, (hvalue _ _ rfl).2⟩
  | value _ hb => exact .inl ⟨_, rfl, hb⟩

/-- Where the second run leaves with a code, the first one does too or has stopped. -/
theorem Ends.error_left (h : T.Ends V outcome (.ok (.error code, t))) :
    (∃ s, outcome = .ok (.error code, s) ∧ T.failed code s t) ∨
      ∃ code' s, outcome = .ok (.error code', s) ∧ T.stopped code' s ∧ T.alone code' s t := by
  cases h with
  | stop hs _ herror => exact .inr ⟨_, _, rfl, hs, herror _ _ rfl⟩
  | error hf => exact .inl ⟨_, rfl, hf⟩

/-- Where the second run is a fault, the first one is too or has stopped. -/
theorem Ends.fault_left {fault : φ}
    (h : T.Ends V outcome (.error fault : Outcome φ ε τ α)) :
    outcome = .error fault ∨ ∃ code s, outcome = .ok (.error code, s) ∧ T.stopped code s := by
  cases h with
  | stop hs _ _ => exact .inr ⟨_, _, rfl, hs⟩
  | fault fault => exact .inl rfl

end

/-! ## One object of a larger collection -/

section Within

variable {γ δ : Type} {place : Place φ σ γ} {place' : Place φ τ δ}

/-- How two objects are tied as parts of collections that are. -/
def within (T : Tie ε σ τ) (place : Place φ σ γ) (place' : Place φ τ δ) (s : σ) (t : τ) :
    Tie ε γ δ where
  both c d := T.both (place.store c s) (place'.store d t)
  failed code c d := T.failed code (place.store c s) (place'.store d t)
  stopped code c := T.stopped code (place.store c s)
  alone code c d := T.alone code (place.store c s) (place'.store d t)

theorem Ends.within {s : σ} {t : τ} {c : γ} {d : δ} {x : Routine φ ε γ α}
    {y : Routine φ ε δ α} (hload : place.load s = .ok c) (hload' : place'.load t = .ok d)
    (h : (T.within place place' s t).Ends V (x c) (y d)) :
    T.Ends V (Routine.within place x s) (Routine.within place' y t) := by
  generalize hx : x c = outcome at h
  generalize hy : y d = other at h
  cases h with
  | fault fault =>
      rw [Routine.within_of_fault hload hx, Routine.within_of_fault hload' hy]
      exact .fault fault
  | error hf =>
      rw [Routine.within_of_ok hload hx, Routine.within_of_ok hload' hy]
      exact .error hf
  | value ha hb =>
      rw [Routine.within_of_ok hload hx, Routine.within_of_ok hload' hy]
      exact .value ha hb
  | stop hs hvalue herror =>
      rw [Routine.within_of_ok hload hx]
      have hs' : T.stopped _ (place.store _ s) := hs
      apply Ends.stop hs'
      · intro a t' hrun
        rcases Routine.within_eq_ok hrun with ⟨d₁, d₂, hd, hrun, rfl⟩
        cases hload'.symm.trans hd
        exact hvalue a d₂ (hy ▸ hrun)
      · intro code t' hrun
        rcases Routine.within_eq_ok hrun with ⟨d₁, d₂, hd, hrun, rfl⟩
        cases hload'.symm.trans hd
        exact herror code d₂ (hy ▸ hrun)

end Within

/-- The same routine on an object that is the same in both runs. -/
theorem Ends.same {T : Tie ε σ σ} {x : Routine φ ε σ α} {s : σ}
    (hvalue : ∀ a s', x s = .ok (.ok a, s') → V a ∧ T.both s' s')
    (herror : ∀ code s', x s = .ok (.error code, s') → T.failed code s' s') :
    T.Ends V (x s) (x s) := by
  rcases hx : x s with fault | ⟨code | a, s'⟩
  · exact .fault fault
  · exact .error (herror code s' hx)
  · exact .value (hvalue a s' hx).1 (hvalue a s' hx).2

/-- A run that follows another one up to a stop. -/
theorem Ends.of_follows {Stop : ε → σ → Prop} {E : ε → σ → τ → Prop} {Q : α → σ → τ → Prop}
    {outcome : Outcome φ ε σ α} {other : Outcome φ ε τ α} (h : Follows Stop E Q outcome other)
    (hstop : ∀ code s, Stop code s → T.stopped code s ∧
      (∀ a t, other = .ok (.ok a, t) → V a ∧ T.alone code s t) ∧
      ∀ code' t, other = .ok (.error code', t) → T.alone code s t)
    (herror : ∀ code s t, E code s t → T.failed code s t)
    (hvalue : ∀ a s t, Q a s t → V a ∧ T.both s t) : T.Ends V outcome other := by
  cases h with
  | stop hs => exact .stop (hstop _ _ hs).1 (hstop _ _ hs).2.1 (hstop _ _ hs).2.2
  | fault fault => exact .fault fault
  | error he => exact .error (herror _ _ _ he)
  | value hq => exact .value (hvalue _ _ _ hq).1 (hvalue _ _ _ hq).2

/-! ## Constructs -/

namespace Joins

theorem pure {a : α} (ha : V a) :
    T.Joins (Pure.pure a : Routine φ ε σ α) (Pure.pure a : Routine φ ε τ α) V where
  together _ _ hb := .value ha hb
  onward _ _ := Triple.pure fun _ ht => ⟨ha, ht⟩

theorem fail {code : ε} (hfailed : ∀ s t, T.both s t → T.failed code s t) :
    T.Joins (Routine.fail code : Routine φ ε σ α) (Routine.fail code : Routine φ ε τ α) V where
  together s t hb := .error (hfailed s t hb)
  onward _ _ := Triple.fail fun _ ht => ht

/-- One after the other. -/
theorem bind {x : Routine φ ε σ α} {y : Routine φ ε τ α} {f : α → Routine φ ε σ β}
    {g : α → Routine φ ε τ β} (h : T.Joins x y V) (hnext : ∀ a, V a → T.Joins (f a) (g a) W) :
    T.Joins (x >>= f) (y >>= g) W where
  onward code s := by
    apply (h.onward code s).bind
    intro a
    apply Triple.assume
    intro ha
    exact (hnext a ha).onward code s
  together s t hb := by
    have hends := h.together s t hb
    generalize hx : x s = outcome at hends
    generalize hy : y t = other at hends
    cases hends with
    | fault fault =>
        rw [Routine.bind_of_fault hx, Routine.bind_of_fault hy]
        exact .fault fault
    | error hf =>
        rw [Routine.bind_of_error hx, Routine.bind_of_error hy]
        exact .error hf
    | value ha hb' =>
        rw [Routine.bind_of_ok hx, Routine.bind_of_ok hy]
        exact (hnext _ ha).together _ _ hb'
    | @stop code s' _ hs hvalue herror =>
        rw [Routine.bind_of_error hx]
        -- the second run goes on from where it is, on its own
        have hrest : Triple (fun t' => t' = t) (y >>= g)
            (fun b t' => W b ∧ T.alone code s' t') fun _ => T.alone code s' := by
          apply Triple.bind (Q := fun a t' => V a ∧ T.alone code s' t')
          · rintro _ rfl
            exact ⟨fun a t' hrun => hvalue a t' (hy ▸ hrun),
              fun code' t' hrun => herror code' t' (hy ▸ hrun)⟩
          · intro a
            apply Triple.assume
            intro ha
            exact (hnext a ha).onward code s'
        exact .stop hs (hrest t rfl).1 (hrest t rfl).2

/-- Both runs go on with a value that they compute from the same data. -/
theorem demand_bind {value : Except φ α} {f : α → Routine φ ε σ β} {g : α → Routine φ ε τ β}
    (h : ∀ a, value = .ok a → T.Joins (f a) (g a) W) :
    T.Joins (Routine.demand value >>= f) (Routine.demand value >>= g) W := by
  cases value with
  | ok a => exact h a rfl
  | error fault =>
      exact ⟨fun _ _ _ => .fault fault,
        fun _ _ _ _ => ⟨fun _ _ hrun => (by cases hrun), fun _ _ hrun => (by cases hrun)⟩⟩

theorem ite {p : Prop} [Decidable p] {x x' : Routine φ ε σ α} {y y' : Routine φ ε τ α}
    (h : p → T.Joins x y V) (h' : ¬ p → T.Joins x' y' V) :
    T.Joins (if p then x else x') (if p then y else y') V := by
  split
  · exact h ‹p›
  · exact h' ‹¬ p›

/-- Both runs go on with what they find in all of their objects. -/
theorem get_bind (Alike : σ → τ → Prop) (hboth : ∀ s t, T.both s t → Alike s t)
    (halike : ∀ t, ∃ s, Alike s t) {f : σ → Routine φ ε σ β} {g : τ → Routine φ ε τ β}
    (h : ∀ s t, Alike s t → T.Joins (f s) (g t) W) :
    T.Joins (Routine.get >>= f) (Routine.get >>= g) W where
  together s t hb := (h s t (hboth s t hb)).together s t hb
  onward code s t ht := by
    rcases halike t with ⟨s', hs'⟩
    exact (h s' t hs').onward code s t ht

section Reading

variable {γ δ : Type} {place : Place φ σ γ} {place' : Place φ τ δ}
  {f : γ → Routine φ ε σ β} {g : δ → Routine φ ε τ β}

/-- Both runs go on with an object that they read. `Alike` says what the two objects have
in common while both run, and every object of the second run is like one of the first. -/
theorem read_bind (Alike : γ → δ → Prop)
    (hload : ∀ s t, T.both s t → ∃ c d, place.load s = .ok c ∧ place'.load t = .ok d ∧
      place.store c s = s ∧ place'.store d t = t ∧ Alike c d)
    (hstore : ∀ t d, place'.load t = .ok d → place'.store d t = t)
    (halike : ∀ d, ∃ c, Alike c d) (h : ∀ c d, Alike c d → T.Joins (f c) (g d) W) :
    T.Joins (Routine.within place Routine.get >>= f)
      (Routine.within place' Routine.get >>= g) W where
  together s t hb := by
    rcases hload s t hb with ⟨c, d, hc, hd, hsc, hsd, hcd⟩
    rw [Routine.within_get_bind hc hsc, Routine.within_get_bind hd hsd]
    exact (h c d hcd).together s t hb
  onward code s t ht := by
    cases hd : place'.load t with
    | error fault =>
        rw [Routine.within_get_bind_fault hd]
        exact ⟨fun _ _ hrun => (by cases hrun), fun _ _ hrun => (by cases hrun)⟩
    | ok d =>
        rw [Routine.within_get_bind hd (hstore t d hd)]
        rcases halike d with ⟨c, hcd⟩
        exact (h c d hcd).onward code s t ht

end Reading

/-- Two loops whose tests and iterations are tied. `V` holds of the locals before every
test. -/
theorem whileLoop {endless : φ} {cond : α → Routine φ ε σ Bool} {cond' : α → Routine φ ε τ Bool}
    {body : α → Routine φ ε σ (LoopStep α)} {body' : α → Routine φ ε τ (LoopStep α)}
    (hcond : ∀ a, V a → T.Joins (cond a) (cond' a) fun _ => True)
    (hbody : ∀ a, V a → T.Joins (body a) (body' a) fun step => V step.locals)
    (fuel : ℕ) {a : α} (ha : V a) :
    T.Joins (Routine.whileLoop endless cond body fuel a)
      (Routine.whileLoop endless cond' body' fuel a) V := by
  induction fuel generalizing a with
  | zero =>
      exact ⟨fun _ _ _ => .fault endless,
        fun _ _ _ _ => ⟨fun _ _ hrun => (by cases hrun), fun _ _ hrun => (by cases hrun)⟩⟩
  | succ fuel ih =>
      apply (hcond a ha).bind
      intro go _
      cases go with
      | false => exact pure ha
      | true =>
          apply (hbody a ha).bind
          intro step hstep
          cases step with
          | next a' => exact ih hstep
          | leave a' => exact pure hstep

/-- A routine on every element of a list. -/
theorem forM {f : β → Routine φ ε σ Unit} {g : β → Routine φ ε τ Unit} (xs : List β)
    (h : ∀ b ∈ xs, T.Joins (f b) (g b) fun _ => True) :
    T.Joins (xs.forM f) (xs.forM g) fun _ => True := by
  induction xs with
  | nil => exact pure trivial
  | cons b xs ih =>
      apply (h b List.mem_cons_self).bind
      intro _ _
      exact ih fun b hb => h b (List.mem_cons_of_mem _ hb)

end Joins

end Tie

end LibHuffman.Foundation
