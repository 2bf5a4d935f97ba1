/-
# Routines that change objects and return a code

A routine reads and changes the objects it is given and leaves in one of three
ways: with a value, with an error code, or by doing something that has no
defined continuation, a fault. The objects survive an error code, because a
caller may go on using them, but not a fault. Loops carry a bound on their
iterations; running past the bound is a fault as well, so a routine that is
proved to leave without a fault is proved to terminate.
-/

import Mathlib.Tactic.Common

namespace LibHuffman.Foundation

/-- How a run ends: with a fault, or with an error code or a value and the
objects as the run left them. -/
abbrev Outcome (φ ε σ α : Type) : Type := Except φ (Except ε α × σ)

/-- A routine over objects `σ` that returns an `α`. -/
def Routine (φ ε σ α : Type) : Type := σ → Outcome φ ε σ α

/-- What the body of a loop asks for: another iteration, or to leave the loop. -/
inductive LoopStep (α : Type)
  | next (locals : α)
  | leave (locals : α)

/-- One object inside a larger collection, possibly behind a pointer that cannot
be followed. -/
structure Place (φ τ σ : Type) where
  /-- Follow the pointer to the object. -/
  load : τ → Except φ σ
  /-- Replace the object. -/
  store : σ → τ → τ

namespace Routine

variable {φ ε σ τ α β : Type}

instance : Monad (Routine φ ε σ) where
  pure a := fun s => .ok (.ok a, s)
  bind x f := fun s =>
    match x s with
    | .error fault => .error fault
    | .ok (.error code, s') => .ok (.error code, s')
    | .ok (.ok a, s') => f a s'

/-- Read the objects. -/
def get : Routine φ ε σ σ := fun s => .ok (.ok s, s)

/-- Change the objects. -/
def modify (change : σ → σ) : Routine φ ε σ Unit := fun s => .ok (.ok (), change s)

/-- Leave with an error code. -/
def fail (code : ε) : Routine φ ε σ α := fun s => .ok (.error code, s)

/-- Continue with a computed value, or fault where it does not exist. -/
def demand (value : Except φ α) : Routine φ ε σ α := fun s =>
  match value with
  | .error fault => .error fault
  | .ok a => .ok (.ok a, s)

/-- Run a routine on one object of a larger collection. -/
def within (place : Place φ τ σ) (x : Routine φ ε σ α) : Routine φ ε τ α := fun t =>
  match place.load t with
  | .error fault => .error fault
  | .ok s =>
    match x s with
    | .error fault => .error fault
    | .ok (r, s') => .ok (r, place.store s' t)

/-- Run `cleanup` after `x`, whichever code `x` left with, and keep that code. -/
def ensuring (x : Routine φ ε σ α) (cleanup : Routine φ ε σ β) : Routine φ ε σ α := fun s =>
  match x s with
  | .error fault => .error fault
  | .ok (r, s') =>
    match cleanup s' with
    | .error fault => .error fault
    | .ok (_, s'') => .ok (r, s'')

/-- Run `cleanup` after `x` only where `x` left with an error code. -/
def onFailure (x : Routine φ ε σ α) (cleanup : Routine φ ε σ β) : Routine φ ε σ α := fun s =>
  match x s with
  | .ok (.error code, s') =>
    match cleanup s' with
    | .error fault => .error fault
    | .ok (_, s'') => .ok (.error code, s'')
  | outcome => outcome

/-- Run a routine that owns one more object for the time of its run. -/
def withLocal (init : τ) (x : Routine φ ε (τ × σ) α) : Routine φ ε σ α := fun s =>
  match x (init, s) with
  | .error fault => .error fault
  | .ok (r, (_, s')) => .ok (r, s')

/-- One test and one iteration of a loop, continued by `rest`. -/
def iteration (cond : α → Routine φ ε σ Bool) (body : α → Routine φ ε σ (LoopStep α))
    (rest : α → Routine φ ε σ α) (a : α) : Routine φ ε σ α := do
  if ← cond a then
    match ← body a with
    | .next a' => rest a'
    | .leave a' => pure a'
  else
    pure a

/-- A `while` loop over the locals `a` and the objects, with at most `fuel`
tests of its condition. -/
def whileLoop (endless : φ) (cond : α → Routine φ ε σ Bool)
    (body : α → Routine φ ε σ (LoopStep α)) : ℕ → α → Routine φ ε σ α
  | 0, _ => fun _ => .error endless
  | fuel + 1, a => iteration cond body (whileLoop endless cond body fuel) a

/-- The loop that begins with `a` and `s` comes to these locals and objects after a
number of iterations. -/
inductive Iterates (cond : α → Routine φ ε σ Bool) (body : α → Routine φ ε σ (LoopStep α))
    (a : α) (s : σ) : ℕ → α → σ → Prop
  | start : Iterates cond body a s 0 a s
  | next {n : ℕ} {a' a'' : α} {s' s'' later : σ} (h : Iterates cond body a s n a' s')
      (hcond : cond a' s' = .ok (.ok true, s''))
      (hbody : body a' s'' = .ok (.ok (.next a''), later)) :
      Iterates cond body a s (n + 1) a'' later

/-! ## Running a sequence -/

theorem except_bind_eq_ok {value : Except φ α} {f : α → Except φ β} {b : β}
    (h : (value >>= f) = .ok b) : ∃ a, value = .ok a ∧ f a = .ok b := by
  cases value with
  | error fault => cases h
  | ok a => exact ⟨a, rfl, h⟩

section Sequence

variable {x : Routine φ ε σ α} {f : α → Routine φ ε σ β} {s s' : σ} {a : α}

theorem bind_of_ok (h : x s = .ok (.ok a, s')) : (x >>= f) s = f a s' := by
  simp only [Bind.bind, h]

theorem bind_of_error {code : ε} (h : x s = .ok (.error code, s')) :
    (x >>= f) s = .ok (.error code, s') := by
  simp only [Bind.bind, h]

theorem bind_of_fault {fault : φ} (h : x s = .error fault) : (x >>= f) s = .error fault := by
  simp only [Bind.bind, h]

theorem bind_assoc {γ : Type} (x : Routine φ ε σ α) (f : α → Routine φ ε σ β)
    (g : β → Routine φ ε σ γ) : (x >>= f) >>= g = x >>= fun a => f a >>= g := by
  funext s
  simp only [Bind.bind]
  cases x s with
  | error fault => rfl
  | ok p => rcases p with ⟨code | a, s'⟩ <;> rfl

/-- A sequence that ends with a value ran both of its halves to a value. -/
theorem bind_eq_ok {b : β} {s'' : σ} (h : (x >>= f) s = .ok (.ok b, s'')) :
    ∃ a s', x s = .ok (.ok a, s') ∧ f a s' = .ok (.ok b, s'') := by
  match hx : x s with
  | .error fault => rw [bind_of_fault hx] at h; cases h
  | .ok (.error code, s') => rw [bind_of_error hx] at h; cases h
  | .ok (.ok a, s') => exact ⟨a, s', rfl, (bind_of_ok hx).symm.trans h⟩

end Sequence

section Primitive

variable (s : σ)

@[simp] theorem modify_apply (change : σ → σ) :
    (modify change : Routine φ ε σ Unit) s = .ok (.ok (), change s) := rfl

@[simp] theorem pure_bind_apply (a : α) (f : α → Routine φ ε σ β) :
    ((pure a : Routine φ ε σ α) >>= f) s = f a s := rfl

@[simp] theorem get_bind_apply (f : σ → Routine φ ε σ β) :
    ((get : Routine φ ε σ σ) >>= f) s = f s s := rfl

@[simp] theorem modify_bind_apply (change : σ → σ) (f : Unit → Routine φ ε σ β) :
    ((modify change : Routine φ ε σ Unit) >>= f) s = f () (change s) := rfl

@[simp] theorem demand_ok_bind_apply (a : α) (f : α → Routine φ ε σ β) :
    ((demand (.ok a) : Routine φ ε σ α) >>= f) s = f a s := rfl

theorem demand_eq_ok {value : Except φ α} {a : α} {s s' : σ}
    (h : (demand value : Routine φ ε σ α) s = .ok (.ok a, s')) : value = .ok a := by
  cases value with
  | error fault => cases h
  | ok b =>
      cases h
      rfl

theorem demand_bind_eq_ok {value : Except φ α} {f : α → Routine φ ε σ β} {b : β} {s s' : σ}
    (h : (demand value >>= f) s = .ok (.ok b, s')) :
    ∃ a, value = .ok a ∧ f a s = .ok (.ok b, s') := by
  cases value with
  | error fault => cases h
  | ok a => exact ⟨a, rfl, h⟩

@[simp] theorem demand_error_bind_apply (fault : φ) (f : α → Routine φ ε σ β) :
    ((demand (.error fault) : Routine φ ε σ α) >>= f) s = .error fault := rfl

end Primitive

/-! ## Objects inside larger collections -/

section Within

variable {place : Place φ τ σ} {x : Routine φ ε σ α} {t : τ} {s s' : σ}

theorem within_of_ok {r : Except ε α} (hload : place.load t = .ok s)
    (h : x s = .ok (r, s')) : within place x t = .ok (r, place.store s' t) := by
  simp only [within, hload, h]

theorem within_eq_ok {r : Except ε α} {t' : τ} (h : within place x t = .ok (r, t')) :
    ∃ s s', place.load t = .ok s ∧ x s = .ok (r, s') ∧ t' = place.store s' t := by
  match hload : place.load t with
  | .error fault =>
      simp only [within, hload] at h
      cases h
  | .ok s =>
      match hx : x s with
      | .error fault =>
          simp only [within, hload, hx] at h
          cases h
      | .ok (r', s') =>
          simp only [within, hload, hx] at h
          cases h
          exact ⟨s, s', rfl, hx, rfl⟩

theorem within_of_fault {fault : φ} (hload : place.load t = .ok s)
    (h : x s = .error fault) : within place x t = .error fault := by
  simp only [within, hload, h]

/-- Reading an object changes nothing where writing it back does not. -/
theorem within_get_bind {f : σ → Routine φ ε τ α} (hload : place.load t = .ok s)
    (hstore : place.store s t = t) : (within place get >>= f) t = f s t := by
  have hget : within place (get : Routine φ ε σ σ) t = .ok (.ok s, t) := by
    rw [within_of_ok hload rfl, hstore]
  exact bind_of_ok hget

theorem within_get_bind_fault {f : σ → Routine φ ε τ α} {fault : φ}
    (hload : place.load t = .error fault) : (within place get >>= f) t = .error fault := by
  have hget : within place (get : Routine φ ε σ σ) t = .error fault := by
    simp only [within, hload]
  exact bind_of_fault hget

end Within

theorem ensuring_of_ok {x : Routine φ ε σ α} {cleanup : Routine φ ε σ β} {s s' s'' : σ}
    {r : Except ε α} {q : Except ε β} (hx : x s = .ok (r, s')) (hc : cleanup s' = .ok (q, s'')) :
    ensuring x cleanup s = .ok (r, s'') := by
  simp only [ensuring, hx, hc]

theorem ensuring_of_fault {x : Routine φ ε σ α} {cleanup : Routine φ ε σ β} {s : σ}
    {fault : φ} (hx : x s = .error fault) : ensuring x cleanup s = .error fault := by
  simp only [ensuring, hx]

theorem ensuring_of_cleanup_fault {x : Routine φ ε σ α} {cleanup : Routine φ ε σ β} {s s' : σ}
    {r : Except ε α} {fault : φ} (hx : x s = .ok (r, s')) (hc : cleanup s' = .error fault) :
    ensuring x cleanup s = .error fault := by
  simp only [ensuring, hx, hc]

/-- A run with a cleanup that ends without a fault ran both. -/
theorem ensuring_eq_ok {x : Routine φ ε σ α} {cleanup : Routine φ ε σ β} {s s'' : σ}
    {r : Except ε α} (h : ensuring x cleanup s = .ok (r, s'')) :
    ∃ s' q, x s = .ok (r, s') ∧ cleanup s' = .ok (q, s'') := by
  match hx : x s with
  | .error fault =>
      rw [ensuring_of_fault hx] at h
      cases h
  | .ok (r', s') =>
      match hc : cleanup s' with
      | .error fault =>
          rw [ensuring_of_cleanup_fault hx hc] at h
          cases h
      | .ok (q, s₂) =>
          rw [ensuring_of_ok hx hc] at h
          cases h
          exact ⟨s', q, rfl, hc⟩

theorem onFailure_of_ok {x : Routine φ ε σ α} {cleanup : Routine φ ε σ β} {s s' : σ} {a : α}
    (hx : x s = .ok (.ok a, s')) : onFailure x cleanup s = .ok (.ok a, s') := by
  simp only [onFailure, hx]

theorem onFailure_of_fault {x : Routine φ ε σ α} {cleanup : Routine φ ε σ β} {s : σ}
    {fault : φ} (hx : x s = .error fault) : onFailure x cleanup s = .error fault := by
  simp only [onFailure, hx]

theorem onFailure_of_error {x : Routine φ ε σ α} {cleanup : Routine φ ε σ β} {s s' s'' : σ}
    {code : ε} {q : Except ε β} (hx : x s = .ok (.error code, s'))
    (hc : cleanup s' = .ok (q, s'')) : onFailure x cleanup s = .ok (.error code, s'') := by
  simp only [onFailure, hx, hc]

theorem onFailure_of_error_fault {x : Routine φ ε σ α} {cleanup : Routine φ ε σ β} {s s' : σ}
    {code : ε} {fault : φ} (hx : x s = .ok (.error code, s')) (hc : cleanup s' = .error fault) :
    onFailure x cleanup s = .error fault := by
  simp only [onFailure, hx, hc]

theorem withLocal_of_ok {init last : τ} {x : Routine φ ε (τ × σ) α} {s s' : σ}
    {r : Except ε α} (hx : x (init, s) = .ok (r, (last, s'))) :
    withLocal init x s = .ok (r, s') := by
  simp only [withLocal, hx]

theorem withLocal_of_fault {init : τ} {x : Routine φ ε (τ × σ) α} {s : σ}
    {fault : φ} (hx : x (init, s) = .error fault) :
    withLocal init x s = .error fault := by
  simp only [withLocal, hx]

theorem withLocal_eq_ok {init : τ} {x : Routine φ ε (τ × σ) α} {s s' : σ} {r : Except ε α}
    (h : withLocal init x s = .ok (r, s')) : ∃ last, x (init, s) = .ok (r, (last, s')) := by
  match hx : x (init, s) with
  | .error fault =>
      rw [withLocal_of_fault hx] at h
      cases h
  | .ok (r', (last, s₁)) =>
      rw [withLocal_of_ok hx] at h
      cases h
      exact ⟨last, rfl⟩

/-! ## Loops -/

section Loop

variable {endless : φ} {cond : α → Routine φ ε σ Bool} {body : α → Routine φ ε σ (LoopStep α)}

/-- To prove `Post` of the outcome of a loop, prove it of one iteration whose rest
satisfies `Post` wherever the invariant holds again with a smaller measure. The
invariant relates the locals and the objects to an abstract state `g`, and `Post`
says how a loop that starts in that state may end. -/
theorem whileLoop_rule {γ : Type} (Inv : γ → ℕ → α → σ → Prop)
    (Post : γ → Outcome φ ε σ α → Prop)
    (unroll : ∀ g n a s (rest : α → Routine φ ε σ α), Inv g n a s →
      (∀ g', ∀ m < n, ∀ a' s', Inv g' m a' s' → Post g' (rest a' s')) →
      Post g (iteration cond body rest a s))
    {g : γ} {n fuel : ℕ} (hfuel : n < fuel) {a : α} {s : σ} (hinv : Inv g n a s) :
    Post g (whileLoop endless cond body fuel a s) := by
  induction fuel generalizing g n a s with
  | zero => exact absurd hfuel (Nat.not_lt_zero n)
  | succ fuel ih =>
      apply unroll g n a s _ hinv
      intro g' m hm a' s' hinv'
      exact ih (by omega) hinv'

variable {rest : α → Routine φ ε σ α} {a a' : α} {s s' s'' : σ}

theorem iteration_of_stop (hc : cond a s = .ok (.ok false, s')) :
    iteration cond body rest a s = .ok (.ok a, s') := by
  rw [iteration, bind_of_ok hc]
  rfl

theorem iteration_of_next (hc : cond a s = .ok (.ok true, s'))
    (hb : body a s' = .ok (.ok (.next a'), s'')) :
    iteration cond body rest a s = rest a' s'' := by
  rw [iteration, bind_of_ok hc]
  exact bind_of_ok hb

theorem iteration_of_leave (hc : cond a s = .ok (.ok true, s'))
    (hb : body a s' = .ok (.ok (.leave a'), s'')) :
    iteration cond body rest a s = .ok (.ok a', s'') := by
  rw [iteration, bind_of_ok hc]
  exact bind_of_ok hb

theorem iteration_of_error {code : ε} (hc : cond a s = .ok (.ok true, s'))
    (hb : body a s' = .ok (.error code, s'')) :
    iteration cond body rest a s = .ok (.error code, s'') := by
  rw [iteration, bind_of_ok hc]
  exact bind_of_error hb

theorem iteration_of_fault {fault : φ} (hc : cond a s = .ok (.ok true, s'))
    (hb : body a s' = .error fault) :
    iteration cond body rest a s = .error fault := by
  rw [iteration, bind_of_ok hc]
  exact bind_of_fault hb

/-- A loop goes on where its iterations have come to. -/
theorem Iterates.whileLoop_eq {n : ℕ} (h : Iterates cond body a s n a' s') (fuel : ℕ) :
    whileLoop endless cond body (fuel + n) a s = whileLoop endless cond body fuel a' s' := by
  induction h generalizing fuel with
  | start => rfl
  | @next n a' a'' s' s'' later _ hcond hbody ih =>
      rw [Nat.add_comm n 1, ← Nat.add_assoc, ih (fuel + 1), whileLoop,
        iteration_of_next hcond hbody]

/-- A loop ends with the iteration that leaves it. -/
theorem Iterates.whileLoop_leave {n fuel : ℕ} {last : α} {later : σ}
    (h : Iterates cond body a s n a' s') (hcond : cond a' s' = .ok (.ok true, s''))
    (hbody : body a' s'' = .ok (.ok (.leave last), later)) (hfuel : n < fuel) :
    whileLoop endless cond body fuel a s = .ok (.ok last, later) := by
  obtain ⟨more, rfl⟩ : ∃ more, fuel = more + 1 + n := ⟨fuel - n - 1, by omega⟩
  rw [h.whileLoop_eq, whileLoop, iteration_of_leave hcond hbody]

end Loop

/-! ## Lists -/

section Lists

variable {s : σ} {f : α → Routine φ ε σ Unit}

/-- To run a routine on every element of a list, prove what it does after the
elements `done`. -/
theorem forM_rule (xs : List α) (Inv : List α → σ → Prop)
    (step : ∀ done a rest s, xs = done ++ a :: rest → Inv done s →
      ∃ s', f a s = .ok (.ok (), s') ∧ Inv (done ++ [a]) s')
    (hinv : Inv [] s) : ∃ s', xs.forM f s = .ok (.ok (), s') ∧ Inv xs s' := by
  have hrun : ∀ done rest s, xs = done ++ rest → Inv done s →
      ∃ s', rest.forM f s = .ok (.ok (), s') ∧ Inv xs s' := by
    intro done rest
    induction rest generalizing done with
    | nil =>
        intro s hxs h
        rw [List.append_nil] at hxs
        exact ⟨s, rfl, hxs ▸ h⟩
    | cons a rest ih =>
        intro s hxs h
        obtain ⟨s', hrun, h'⟩ := step done a rest s hxs h
        obtain ⟨s'', hrest, h''⟩ := ih (done ++ [a]) s' (by rw [hxs, List.append_assoc]; rfl) h'
        refine ⟨s'', ?_, h''⟩
        show (f a >>= fun _ => rest.forM f) s = _
        rw [bind_of_ok hrun]
        exact hrest
  exact hrun [] xs s rfl hinv

/-- To run a routine on the numbers below `n`, prove what it does after the first
`k` of them. -/
theorem forM_range_rule (n : ℕ) {f : ℕ → Routine φ ε σ Unit} (Inv : ℕ → σ → Prop)
    (step : ∀ k < n, ∀ s, Inv k s → ∃ s', f k s = .ok (.ok (), s') ∧ Inv (k + 1) s')
    (hinv : Inv 0 s) : ∃ s', (List.range n).forM f s = .ok (.ok (), s') ∧ Inv n s' := by
  obtain ⟨s', hrun, h⟩ := forM_rule (List.range n) (fun done s => Inv done.length s) (f := f)
    (s := s) (fun done k rest s hrange h => by
      have hlt : done.length < n := by
        have hlen := congrArg List.length hrange
        simp only [List.length_range, List.length_append, List.length_cons] at hlen
        omega
      have hget := congrArg (fun ks => ks[done.length]?) hrange
      simp only [List.getElem?_range hlt, List.getElem?_append_right (Nat.le_refl _), Nat.sub_self,
        List.getElem?_cons_zero, Option.some.injEq] at hget
      subst hget
      rw [List.length_append]
      exact step _ hlt s h) hinv
  exact ⟨s', hrun, by rwa [List.length_range] at h⟩

end Lists

/-! ## Runs without faults -/

/-- A run has ended without a fault: with a code and objects as in `Err`, or with a
value and objects as in `Post`. -/
inductive Ended (Err : ε → σ → Prop) (Post : α → σ → Prop) : Outcome φ ε σ α → Prop
  | error {code : ε} {s : σ} (h : Err code s) : Ended Err Post (.ok (.error code, s))
  | value {a : α} {s : σ} (h : Post a s) : Ended Err Post (.ok (.ok a, s))

namespace Ended

variable {Err : ε → σ → Prop} {Post : α → σ → Prop} {x : Routine φ ε σ α} {s : σ}

theorem mono {Err' : ε → σ → Prop} {Post' : α → σ → Prop} {outcome : Outcome φ ε σ α}
    (h : Ended Err Post outcome) (herror : ∀ code s, Err code s → Err' code s)
    (hvalue : ∀ a s, Post a s → Post' a s) : Ended Err' Post' outcome := by
  cases h with
  | error he => exact .error (herror _ _ he)
  | value hp => exact .value (hvalue _ _ hp)

/-- One after the other. -/
theorem bind {f : α → Routine φ ε σ β} {Post' : β → σ → Prop} (h : Ended Err Post (x s))
    (hnext : ∀ a s', Post a s' → Ended Err Post' (f a s')) : Ended Err Post' ((x >>= f) s) := by
  generalize hx : x s = outcome at h
  cases h with
  | error he =>
      rw [bind_of_error hx]
      exact .error he
  | value hp =>
      rw [bind_of_ok hx]
      exact hnext _ _ hp

/-- A run on one object of a larger collection. -/
theorem within {place : Place φ τ σ} {t : τ} {Err' : ε → τ → Prop} {Post' : α → τ → Prop}
    (hload : place.load t = .ok s) (h : Ended Err Post (x s))
    (herror : ∀ code s, Err code s → Err' code (place.store s t))
    (hvalue : ∀ a s, Post a s → Post' a (place.store s t)) :
    Ended Err' Post' (Routine.within place x t) := by
  generalize hx : x s = outcome at h
  cases h with
  | error he =>
      rw [within_of_ok hload hx]
      exact .error (herror _ _ he)
  | value hp =>
      rw [within_of_ok hload hx]
      exact .value (hvalue _ _ hp)

end Ended

end Routine

end LibHuffman.Foundation
