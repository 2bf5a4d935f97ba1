/-
# Preconditions and postconditions

A triple says what a routine leaves behind, from all objects that meet a precondition: one
condition where it returns a value, and one where it leaves with a code. Runs that are
faults are left out; that there are none is another matter. The rules follow the
constructs of a routine.
-/

import LibHuffman.Foundation.Routine

namespace LibHuffman.Foundation

variable {φ ε σ τ α β : Type}

/-- From objects with `P`, a routine that returns a value leaves `Q`, and one that leaves
with a code leaves `E`. -/
def Triple (P : σ → Prop) (x : Routine φ ε σ α) (Q : α → σ → Prop) (E : ε → σ → Prop) :
    Prop :=
  ∀ s, P s → (∀ a s', x s = .ok (.ok a, s') → Q a s') ∧
    ∀ code s', x s = .ok (.error code, s') → E code s'

namespace Triple

variable {P : σ → Prop} {x : Routine φ ε σ α} {Q : α → σ → Prop} {E : ε → σ → Prop}

/-! ## Consequence -/

theorem mono {P' : σ → Prop} {Q' : α → σ → Prop} {E' : ε → σ → Prop}
    (h : Triple P x Q E) (hpre : ∀ s, P' s → P s)
    (hpost : ∀ a s, Q a s → Q' a s) (herr : ∀ code s, E code s → E' code s) :
    Triple P' x Q' E' := by
  intro s hs
  rcases h s (hpre s hs) with ⟨hvalue, hcode⟩
  exact ⟨fun a s' hrun => hpost a s' (hvalue a s' hrun),
    fun code s' hrun => herr code s' (hcode code s' hrun)⟩

theorem strengthen {P' : σ → Prop} (h : Triple P x Q E) (hpre : ∀ s, P' s → P s) :
    Triple P' x Q E :=
  h.mono hpre (fun _ _ hs => hs) fun _ _ hs => hs

theorem weaken {Q' : α → σ → Prop} (h : Triple P x Q E) (hpost : ∀ a s, Q a s → Q' a s) :
    Triple P x Q' E :=
  h.mono (fun _ hs => hs) hpost fun _ _ hs => hs

/-- The proof of a triple may use what its precondition says of some objects. -/
theorem known (h : ∀ s, P s → Triple P x Q E) : Triple P x Q E :=
  fun s hs => h s hs s hs

/-- The proof of a triple may use what its precondition says of a value. -/
theorem ofExists {P : β → σ → Prop} (h : ∀ b, Triple (P b) x Q E) :
    Triple (fun s => ∃ b, P b s) x Q E := by
  intro s hs
  rcases hs with ⟨b, hb⟩
  exact h b s hb

/-- The proof of a triple may use a part of its precondition that is about no object. -/
theorem assume {p : Prop} (h : p → Triple P x Q E) : Triple (fun s => p ∧ P s) x Q E :=
  fun s hs => h hs.1 s hs.2

/-- To prove a triple, prove it from each of the objects. -/
theorem fix (h : ∀ s₀, P s₀ → Triple (fun s => s = s₀) x Q E) : Triple P x Q E :=
  fun s hs => h s hs s rfl

/-- A precondition may come in several cases. -/
theorem cases {P' : σ → Prop} (h : Triple P x Q E) (h' : Triple P' x Q E) :
    Triple (fun s => P s ∨ P' s) x Q E := by
  intro s hs
  exact hs.elim (h s) (h' s)

/-- What two triples say of a routine holds together. -/
theorem and {P' : σ → Prop} {Q' : α → σ → Prop} {E' : ε → σ → Prop} (h : Triple P x Q E)
    (h' : Triple P' x Q' E') :
    Triple (fun s => P s ∧ P' s) x (fun a s => Q a s ∧ Q' a s) fun code s =>
      E code s ∧ E' code s := by
  intro s hs
  apply And.intro
  · exact fun a s' hrun => ⟨(h s hs.1).1 a s' hrun, (h' s hs.2).1 a s' hrun⟩
  · exact fun code s' hrun => ⟨(h s hs.1).2 code s' hrun, (h' s hs.2).2 code s' hrun⟩

/-- A triple that says nothing. -/
theorem unconditional : Triple P x (fun _ _ => True) fun _ _ => True :=
  fun _ _ => ⟨fun _ _ _ => trivial, fun _ _ _ => trivial⟩

/-- A run of a routine that leaves the same behind wherever it ends. -/
theorem of_ok {R : σ → Prop} (h : Triple P x (fun _ => R) fun _ => R) {s s' : σ}
    {r : Except ε α} (hs : P s) (hrun : x s = .ok (r, s')) : R s' := by
  cases r with
  | error code => exact (h s hs).2 code s' hrun
  | ok a => exact (h s hs).1 a s' hrun

/-- A routine that leaves the objects as they are keeps what holds of them. -/
theorem of_same (h : ∀ s, ∃ r, x s = .ok (r, s)) : Triple P x (fun _ => P) fun _ => P := by
  intro s hs
  rcases h s with ⟨r, hr⟩
  apply And.intro
  · intro a s' hrun
    cases hr.symm.trans hrun
    exact hs
  · intro code s' hrun
    cases hr.symm.trans hrun
    exact hs

/-! ## Constructs -/

theorem pure {a : α} (h : ∀ s, P s → Q a s) :
    Triple P (Pure.pure a : Routine φ ε σ α) Q E := by
  intro s hs
  refine ⟨fun b s' hrun => ?_, fun code s' hrun => by cases hrun⟩
  cases hrun
  exact h s hs

theorem fail {code : ε} (h : ∀ s, P s → E code s) :
    Triple P (Routine.fail code : Routine φ ε σ α) Q E := by
  intro s hs
  refine ⟨fun b s' hrun => (by cases hrun), fun code' s' hrun => ?_⟩
  cases hrun
  exact h s hs

theorem modify {change : σ → σ} {Q : Unit → σ → Prop} (h : ∀ s, P s → Q () (change s)) :
    Triple P (Routine.modify change : Routine φ ε σ Unit) Q E := by
  intro s hs
  refine ⟨fun b s' hrun => ?_, fun code s' hrun => by cases hrun⟩
  cases hrun
  exact h s hs

/-- One after the other. -/
theorem bind {f : α → Routine φ ε σ β} {Q' : β → σ → Prop} (h : Triple P x Q E)
    (hnext : ∀ a, Triple (Q a) (f a) Q' E) : Triple P (x >>= f) Q' E := by
  intro s hs
  rcases h s hs with ⟨hvalue, hcode⟩
  match hx : x s with
  | .error fault =>
      rw [Routine.bind_of_fault hx]
      exact ⟨fun _ _ hrun => (by cases hrun), fun _ _ hrun => (by cases hrun)⟩
  | .ok (.error code, s') =>
      rw [Routine.bind_of_error hx]
      refine ⟨fun _ _ hrun => (by cases hrun), fun _ _ hrun => ?_⟩
      cases hrun
      exact hcode code s' hx
  | .ok (.ok a, s') =>
      rw [Routine.bind_of_ok hx]
      exact hnext a s' (hvalue a s' hx)

/-- A routine that goes on with the objects it reads. -/
theorem get_bind {f : σ → Routine φ ε σ α}
    (h : ∀ s₀, Triple (fun s => s = s₀ ∧ P s) (f s₀) Q E) :
    Triple P (Routine.get >>= f) Q E := by
  intro s hs
  rw [Routine.get_bind_apply]
  exact h s s ⟨rfl, hs⟩

/-- A routine that goes on with a value, if there is one. -/
theorem demand_bind {value : Except φ β} {f : β → Routine φ ε σ α}
    (h : ∀ b, value = .ok b → Triple P (f b) Q E) :
    Triple P (Routine.demand value >>= f) Q E := by
  intro s hs
  cases value with
  | error fault => exact ⟨fun _ _ hrun => (by cases hrun), fun _ _ hrun => (by cases hrun)⟩
  | ok b => exact h b rfl s hs

/-- A routine that goes on with a value it computes from what it reads. -/
theorem fetch_bind {value : σ → Except φ β} {f : β → Routine φ ε σ α}
    (h : ∀ b, Triple (fun s => value s = .ok b ∧ P s) (f b) Q E) :
    Triple P (Routine.get >>= fun s => Routine.demand (value s) >>= f) Q E := by
  apply get_bind
  intro s₀
  apply demand_bind
  intro b hvalue
  apply (h b).strengthen
  rintro s ⟨rfl, hs⟩
  exact ⟨hvalue, hs⟩

theorem ite {p : Prop} [Decidable p] {y : Routine φ ε σ α} (hx : p → Triple P x Q E)
    (hy : ¬ p → Triple P y Q E) : Triple P (if p then x else y) Q E := by
  split
  · exact hx ‹p›
  · exact hy ‹¬ p›

/-- A routine on one object of a larger collection. -/
theorem within {place : Place φ τ σ} {P : τ → Prop} {Q : α → τ → Prop} {E : ε → τ → Prop}
    (h : ∀ t, P t → Triple (fun s => place.load t = .ok s) x
      (fun a s => Q a (place.store s t)) fun code s => E code (place.store s t)) :
    Triple P (Routine.within place x) Q E := by
  intro t ht
  apply And.intro
  · intro a t' hrun
    rcases Routine.within_eq_ok hrun with ⟨s, s', hload, hx, rfl⟩
    exact (h t ht s hload).1 a s' hx
  · intro code t' hrun
    rcases Routine.within_eq_ok hrun with ⟨s, s', hload, hx, rfl⟩
    exact (h t ht s hload).2 code s' hx

/-- A cleanup after a code. -/
theorem onFailure {cleanup : Routine φ ε σ β} {E' : ε → σ → Prop} (h : Triple P x Q E)
    (hcleanup : ∀ code, Triple (E code) cleanup (fun _ => E' code) fun _ => E' code) :
    Triple P (Routine.onFailure x cleanup) Q E' := by
  intro s hs
  rcases h s hs with ⟨hvalue, hcode⟩
  match hx : x s with
  | .error fault =>
      rw [Routine.onFailure_of_fault hx]
      exact ⟨fun _ _ hrun => (by cases hrun), fun _ _ hrun => (by cases hrun)⟩
  | .ok (.ok a, s') =>
      rw [Routine.onFailure_of_ok hx]
      refine ⟨fun _ _ hrun => ?_, fun _ _ hrun => by cases hrun⟩
      cases hrun
      exact hvalue a s' hx
  | .ok (.error code, s') =>
      rcases hcleanup code s' (hcode code s' hx) with ⟨hvalue', hcode'⟩
      match hc : cleanup s' with
      | .error fault =>
          rw [Routine.onFailure_of_error_fault hx hc]
          exact ⟨fun _ _ hrun => (by cases hrun), fun _ _ hrun => (by cases hrun)⟩
      | .ok (.ok b, s'') =>
          rw [Routine.onFailure_of_error hx hc]
          refine ⟨fun _ _ hrun => (by cases hrun), fun _ _ hrun => ?_⟩
          cases hrun
          exact hvalue' b s'' hc
      | .ok (.error code', s'') =>
          rw [Routine.onFailure_of_error hx hc]
          refine ⟨fun _ _ hrun => (by cases hrun), fun _ _ hrun => ?_⟩
          cases hrun
          exact hcode' code' s'' hc

/-- A cleanup wherever the run ends. -/
theorem ensuring {cleanup : Routine φ ε σ β} {Q' : α → σ → Prop} {E' : ε → σ → Prop}
    (h : Triple P x Q E)
    (hvalue : ∀ a, Triple (Q a) cleanup (fun _ => Q' a) fun _ => Q' a)
    (hcode : ∀ code, Triple (E code) cleanup (fun _ => E' code) fun _ => E' code) :
    Triple P (Routine.ensuring x cleanup) Q' E' := by
  intro s hs
  apply And.intro
  · intro a s'' hrun
    rcases Routine.ensuring_eq_ok hrun with ⟨s', q, hx, hclean⟩
    have hs' := (h s hs).1 a s' hx
    cases q with
    | error code => exact (hvalue a s' hs').2 code s'' hclean
    | ok b => exact (hvalue a s' hs').1 b s'' hclean
  · intro code s'' hrun
    rcases Routine.ensuring_eq_ok hrun with ⟨s', q, hx, hclean⟩
    have hs' := (h s hs).2 code s' hx
    cases q with
    | error code' => exact (hcode code s' hs').2 code' s'' hclean
    | ok b => exact (hcode code s' hs').1 b s'' hclean

/-- One more object for the time of a run. -/
theorem withLocal {init : τ} {x : Routine φ ε (τ × σ) α}
    (h : Triple (fun s => s.1 = init ∧ P s.2) x (fun a s => Q a s.2)
      fun code s => E code s.2) :
    Triple P (Routine.withLocal init x) Q E := by
  intro s hs
  rcases h (init, s) ⟨rfl, hs⟩ with ⟨hvalue, hcode⟩
  apply And.intro
  · intro a s' hrun
    rcases Routine.withLocal_eq_ok hrun with ⟨last, hx⟩
    exact hvalue a (last, s') hx
  · intro code s' hrun
    rcases Routine.withLocal_eq_ok hrun with ⟨last, hx⟩
    exact hcode code (last, s') hx

/-- A loop with an invariant for its locals and objects, of which the body knows what the
condition has found. -/
theorem whileLoopInside {endless : φ} {cond : α → Routine φ ε σ Bool}
    {body : α → Routine φ ε σ (LoopStep α)} (Inv Inside : α → σ → Prop)
    (hcond : ∀ a, Triple (Inv a) (cond a) (fun go s => if go then Inside a s else Q a s) E)
    (hbody : ∀ a, Triple (Inside a) (body a) (fun step s => match step with
      | .next a' => Inv a' s
      | .leave a' => Q a' s) E) (fuel : ℕ) (a : α) :
    Triple (Inv a) (Routine.whileLoop endless cond body fuel a) Q E := by
  induction fuel generalizing a with
  | zero => exact fun _ _ => ⟨fun _ _ hrun => (by cases hrun), fun _ _ hrun => (by cases hrun)⟩
  | succ fuel ih =>
      apply (hcond a).bind
      intro go
      cases go with
      | false => exact pure fun s hs => hs
      | true =>
          apply (hbody a).bind
          intro step
          cases step with
          | next a' => exact ih a'
          | leave a' => exact pure fun s hs => hs

/-- A loop with an invariant for its locals and objects. -/
theorem whileLoop {endless : φ} {cond : α → Routine φ ε σ Bool}
    {body : α → Routine φ ε σ (LoopStep α)} (Inv : α → σ → Prop)
    (hcond : ∀ a, Triple (Inv a) (cond a) (fun go s => if go then Inv a s else Q a s) E)
    (hbody : ∀ a, Triple (Inv a) (body a) (fun step s => match step with
      | .next a' => Inv a' s
      | .leave a' => Q a' s) E) (fuel : ℕ) (a : α) :
    Triple (Inv a) (Routine.whileLoop endless cond body fuel a) Q E :=
  whileLoopInside Inv Inv hcond hbody fuel a

/-- A routine on every element of a list, with an invariant for the elements that are done. -/
theorem forM {f : β → Routine φ ε σ Unit} (xs : List β) (Inv : List β → σ → Prop)
    (h : ∀ done b rest, xs = done ++ b :: rest →
      Triple (Inv done) (f b) (fun _ => Inv (done ++ [b])) E) :
    Triple (Inv []) (xs.forM f) (fun _ => Inv xs) E := by
  suffices hrest : ∀ done rest, xs = done ++ rest →
      Triple (Inv done) (rest.forM f) (fun _ => Inv xs) E from hrest [] xs rfl
  intro done rest hxs
  induction rest generalizing done with
  | nil =>
      rw [List.append_nil] at hxs
      exact pure fun s hs => hxs ▸ hs
  | cons b rest ih =>
      apply (h done b rest hxs).bind
      intro _
      apply ih
      rw [hxs, List.append_assoc, List.singleton_append]

end Triple

/-! ## What a routine leaves alone -/

/-- A routine that does not change what `view` shows of its objects. -/
def Preserves (view : σ → β) (x : Routine φ ε σ α) : Prop :=
  ∀ v, Triple (fun s => view s = v) x (fun _ s => view s = v) fun _ s => view s = v

namespace Preserves

variable {γ δ : Type} {view : σ → γ} {x : Routine φ ε σ α}

theorem pure (a : α) : Preserves view (Pure.pure a : Routine φ ε σ α) :=
  fun _ => Triple.pure fun _ hs => hs

theorem fail (code : ε) : Preserves view (Routine.fail code : Routine φ ε σ α) :=
  fun _ => Triple.fail fun _ hs => hs

theorem get : Preserves view (Routine.get : Routine φ ε σ σ) := by
  intro v s hs
  refine ⟨fun _ _ hrun => ?_, fun _ _ hrun => (by cases hrun)⟩
  cases hrun
  exact hs

theorem get_bind {f : σ → Routine φ ε σ α} (h : ∀ s, Preserves view (f s)) :
    Preserves view (Routine.get >>= f) :=
  fun v => Triple.get_bind fun s => (h s v).strengthen fun _ hs => hs.2

theorem demand (value : Except φ α) : Preserves view (Routine.demand value : Routine φ ε σ α) := by
  intro v s hs
  cases value with
  | error fault => exact ⟨fun _ _ hrun => (by cases hrun), fun _ _ hrun => (by cases hrun)⟩
  | ok a =>
      refine ⟨fun _ _ hrun => ?_, fun _ _ hrun => (by cases hrun)⟩
      cases hrun
      exact hs

theorem modify {change : σ → σ} (h : ∀ s, view (change s) = view s) :
    Preserves view (Routine.modify change : Routine φ ε σ Unit) :=
  fun _ => Triple.modify fun s hs => (h s).trans hs

theorem bind {f : α → Routine φ ε σ β} (hx : Preserves view x) (hf : ∀ a, Preserves view (f a)) :
    Preserves view (x >>= f) :=
  fun v => (hx v).bind fun a => hf a v

theorem within {place : Place φ σ τ} (hstore : ∀ t s, view (place.store t s) = view s)
    (y : Routine φ ε τ α) : Preserves view (Routine.within place y) := by
  intro v
  apply Triple.within
  intro s hs t _
  exact ⟨fun _ t' _ => (hstore t' s).trans hs, fun _ t' _ => (hstore t' s).trans hs⟩

/-- A routine on one object, of which it leaves alone what the view shows of it. -/
theorem within_of {place : Place φ σ τ} {inner : τ → δ} {y : Routine φ ε τ α}
    (hstore : ∀ s t t', place.load s = .ok t → inner t' = inner t →
      view (place.store t' s) = view s) (hy : Preserves inner y) :
    Preserves view (Routine.within place y) := by
  intro v
  apply Triple.within
  intro s hs t hload
  have hkept : ∀ t', inner t' = inner t → view (place.store t' s) = v :=
    fun t' ht' => (hstore s t t' hload ht').trans hs
  rcases hy (inner t) t rfl with ⟨hvalue, hcode⟩
  exact ⟨fun a t' hrun => hkept t' (hvalue a t' hrun),
    fun code t' hrun => hkept t' (hcode code t' hrun)⟩

theorem ite {p : Prop} [Decidable p] {y : Routine φ ε σ α} (hx : Preserves view x)
    (hy : Preserves view y) : Preserves view (if p then x else y) :=
  fun v => Triple.ite (fun _ => hx v) fun _ => hy v

theorem whileLoop {endless : φ} {cond : α → Routine φ ε σ Bool}
    {body : α → Routine φ ε σ (LoopStep α)} (hcond : ∀ a, Preserves view (cond a))
    (hbody : ∀ a, Preserves view (body a)) (fuel : ℕ) (a : α) :
    Preserves view (Routine.whileLoop endless cond body fuel a) := by
  induction fuel generalizing a with
  | zero => exact fun _ _ _ => ⟨fun _ _ hrun => (by cases hrun), fun _ _ hrun => (by cases hrun)⟩
  | succ fuel ih =>
      apply bind (hcond a)
      intro go
      cases go with
      | false => exact pure a
      | true =>
          apply bind (hbody a)
          intro step
          cases step with
          | next a' => exact ih a'
          | leave a' => exact pure a'

/-- A run of such a routine that ends. -/
theorem of_ok (h : Preserves view x) {s s' : σ} {r : Except ε α} (hrun : x s = .ok (r, s')) :
    view s' = view s :=
  (h _).of_ok rfl hrun

end Preserves

end LibHuffman.Foundation
