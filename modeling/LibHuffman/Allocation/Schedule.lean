/-
# Schedules of allocation failures

Which allocations succeed is part of the state. A run under any schedule follows the
run in which every allocation succeeds, up to the first allocation that fails. For
routines that do not allocate this says that they do not look at the schedule.
-/

import LibHuffman.Foundation.Follows
import LibHuffman.Model.Config

namespace LibHuffman

open Foundation

/-! ## Schedules -/

/-- The outcomes `later` are left of `first` after allocations that succeeded. -/
def Spared (first later : List Bool) : Prop := ∃ used, first = used ++ later ∧ false ∉ used

/-- The outcomes `later` are left of `first` after allocations of which the last one
failed and the others succeeded. -/
def Exhausted (first later : List Bool) : Prop :=
  ∃ used, first = used ++ false :: later ∧ false ∉ used

theorem Spared.refl (first : List Bool) : Spared first first := ⟨[], rfl, List.not_mem_nil⟩

theorem Spared.tail {first later : List Bool} (h : Spared first (true :: later)) :
    Spared first later := by
  rcases h with ⟨used, hfirst, hused⟩
  refine ⟨used ++ [true], by rw [hfirst, List.append_assoc]; rfl, ?_⟩
  simpa using hused

theorem Spared.exhausted {first later : List Bool} (h : Spared first (false :: later)) :
    Exhausted first later := h

theorem Spared.trans {first mid later : List Bool} (h : Spared first mid) (h' : Spared mid later) :
    Spared first later := by
  rcases h with ⟨used, rfl, hused⟩
  rcases h' with ⟨used', rfl, hused'⟩
  refine ⟨used ++ used', (List.append_assoc ..).symm, fun hmem => ?_⟩
  exact (List.mem_append.mp hmem).elim hused hused'

theorem Spared.trans_exhausted {first mid later : List Bool} (h : Spared first mid)
    (h' : Exhausted mid later) : Exhausted first later := by
  rcases h with ⟨used, rfl, hused⟩
  rcases h' with ⟨used', rfl, hused'⟩
  refine ⟨used ++ used', (List.append_assoc ..).symm, fun hmem => ?_⟩
  exact (List.mem_append.mp hmem).elim hused hused'

theorem Spared.not_mem {first later : List Bool} (h : Spared first later)
    (hfirst : false ∉ first) : false ∉ later := by
  rcases h with ⟨used, rfl, -⟩
  exact fun hmem => hfirst (List.mem_append_right used hmem)

/-- Objects with the outcomes of the coming allocations among them. -/
class Allocating (σ : Type) where
  /-- The outcomes of the coming allocations. -/
  allocations : σ → List Bool
  /-- Put other outcomes in their place. -/
  schedule : List Bool → σ → σ

namespace Allocating

instance : Allocating (List Bool) := ⟨id, fun outcomes _ => outcomes⟩

instance : Allocating Heap := ⟨Heap.allocations, fun allocations h => { h with allocations }⟩

instance {α : Type} : Allocating (Creation α) :=
  ⟨Creation.allocations, fun allocations c => { c with allocations }⟩

instance : Allocating TreeStore :=
  ⟨fun s => allocations s.heap, fun outcomes s => { s with heap := schedule outcomes s.heap }⟩

instance : Allocating HistogramTree :=
  ⟨fun s => allocations s.heap, fun outcomes s => { s with heap := schedule outcomes s.heap }⟩

instance {ρ ω : Type} : Allocating (World ρ ω) :=
  ⟨fun w => allocations w.heap, fun outcomes w => { w with heap := schedule outcomes w.heap }⟩

instance {α σ : Type} [Allocating σ] : Allocating (α × σ) :=
  ⟨fun s => allocations s.2, fun outcomes s => (s.1, schedule outcomes s.2)⟩

end Allocating

open Allocating

/-! ## Following the run without failures -/

section

variable {σ : Type} [Allocating σ]

/-- A run has come to its first failed allocation and left with the code for it. -/
structure OutOfMemory (first : List Bool) (I : σ → Prop) (code : HufError) (s : σ) : Prop where
  code : code = .memoryAllocation
  exhausted : Exhausted first (allocations s)
  inv : I s

/-- A run and the run without failures are at the same place. -/
structure Parallel (first : List Bool) (I : σ → Prop) (s t : σ) : Prop where
  spared : Spared first (allocations s)
  same : t = schedule [] s
  inv : I s

/-- A run follows the run without failures up to its first failed allocation. `I`
holds where it leaves with a code, and `Q` of the values. -/
abbrev FollowsSchedule (first : List Bool) (I : σ → Prop) {α : Type} (Q : α → σ → Prop) :
    Outcome Fault HufError σ α → Outcome Fault HufError σ α → Prop :=
  Follows (OutOfMemory first I) (fun _ => Parallel first I) fun a => Parallel first (Q a)

/-- From every state with `P`, a routine follows itself without failures. -/
def Endures (I P : σ → Prop) {α : Type} (x : CRoutine σ α) (Q : α → σ → Prop) : Prop :=
  ∀ first s, Spared first (allocations s) → P s →
    FollowsSchedule first I Q (x s) (x (schedule [] s))

/-- A cleanup that ends wherever it may begin, and does not allocate. -/
def Cleans (I I' : σ → Prop) {α : Type} (cleanup : CRoutine σ α) : Prop :=
  ∀ s, I s → ∃ q s', cleanup s = .ok (q, s') ∧
    cleanup (schedule [] s) = .ok (q, schedule [] s') ∧ allocations s' = allocations s ∧ I' s'

/-- One object in which the outcomes of the allocations of the larger collection
are found. -/
structure Carries {τ : Type} [Allocating τ] (place : Place Fault τ σ) : Prop where
  load : ∀ t, place.load (schedule [] t) = (place.load t).map (schedule [])
  load_allocations : ∀ t s, place.load t = .ok s → allocations s = allocations t
  store : ∀ t s, place.store (schedule [] s) (schedule [] t) = schedule [] (place.store s t)
  store_allocations : ∀ t s, allocations (place.store s t) = allocations s

/-- One object next to the outcomes of the allocations. -/
structure Separate {τ β : Type} [Allocating τ] (place : Place Fault τ β) : Prop where
  load : ∀ t, place.load (schedule [] t) = place.load t
  store : ∀ t b, place.store b (schedule [] t) = schedule [] (place.store b t)
  store_allocations : ∀ t b, allocations (place.store b t) = allocations t
  store_load : ∀ t b, place.load t = .ok b → place.store b t = t

end

/-! ## Rules -/

section

variable {σ β : Type} [Allocating σ] {I I' : σ → Prop}

/-- A cleanup does the same in both runs. -/
theorem Cleans.follows {cleanup : CRoutine σ β} {Last Last' : σ → Prop} {first : List Bool}
    {s t : σ} (h : Cleans Last Last' cleanup) (hparallel : Parallel first Last s t) :
    Follows (fun _ _ => False) (fun _ => Parallel first Last') (fun _ => Parallel first Last')
      (cleanup s) (cleanup t) := by
  rcases h s hparallel.inv with ⟨q, s', hrun, hrun', hallocations, hlast⟩
  rw [hparallel.same, hrun, hrun']
  have h' : Parallel first Last' s' (schedule [] s') :=
    ⟨hallocations.symm ▸ hparallel.spared, rfl, hlast⟩
  cases q with
  | error code => exact .error h'
  | ok q => exact .value h'

/-- A cleanup after a failed allocation. -/
theorem Cleans.stop {cleanup : CRoutine σ β} {first : List Bool} {code : HufError} {s : σ}
    (h : Cleans I I' cleanup) (hstop : OutOfMemory first I code s) :
    ∃ q s', cleanup s = .ok (q, s') ∧ OutOfMemory first I' code s' := by
  rcases h s hstop.inv with ⟨q, s', hrun, -, hallocations, hinv⟩
  exact ⟨q, s', hrun, hstop.code, hallocations.symm ▸ hstop.exhausted, hinv⟩

/-- A routine that neither allocates nor fails is a cleanup. -/
theorem Cleans.of_endures {cleanup : CRoutine σ β}
    (h : Endures (fun _ => False) I cleanup fun _ _ => True)
    (hrun : ∀ s, I s → ∃ b s', cleanup s = .ok (.ok b, s') ∧ allocations s' = allocations s ∧
      I' s') : Cleans I I' cleanup := by
  intro s hs
  rcases hrun s hs with ⟨b, s', hrun, hallocations, hinv⟩
  have hfollows := h (allocations s) s (Spared.refl _) hs
  rw [hrun] at hfollows
  rcases hfollows.value_right with ⟨t, hrun', hparallel⟩
  exact ⟨.ok b, s', hrun, hparallel.same ▸ hrun', hallocations, hinv⟩

end

namespace Endures

section

variable {σ τ α β γ : Type} [Allocating σ] [Allocating τ] {I I' P P' : σ → Prop}
  {Q Q' : α → σ → Prop} {x : CRoutine σ α}

theorem mono (h : Endures I P x Q) (hpre : ∀ s, P' s → P s)
    (hinv : ∀ s, I s → I' s) (hpost : ∀ a s, Q a s → Q' a s) :
    Endures I' P' x Q' := by
  intro first s hspared hs
  apply (h first s hspared (hpre s hs)).mono
  · exact fun code t hstop => ⟨hstop.code, hstop.exhausted, hinv t hstop.inv⟩
  · exact fun _ t _ h => ⟨h.spared, h.same, hinv t h.inv⟩
  · exact fun a t _ h => ⟨h.spared, h.same, hpost a t h.inv⟩

theorem strengthen (h : Endures I P x Q) (hpre : ∀ s, P' s → P s) :
    Endures I P' x Q :=
  h.mono hpre (fun _ hs => hs) fun _ _ hs => hs

theorem weaken (h : Endures I P x Q) (hpost : ∀ a s, Q a s → Q' a s) :
    Endures I P x Q' :=
  h.mono (fun _ hs => hs) (fun _ hs => hs) hpost

/-- What is said of the state apart from the run is known to the proof. -/
theorem assume {p : Prop} (h : p → Endures I P x Q) :
    Endures I (fun s => p ∧ P s) x Q :=
  fun first s hspared hs => h hs.1 first s hspared hs.2

theorem pure {a : α} (h : ∀ s, P s → Q a s) :
    Endures I P (Pure.pure a : CRoutine σ α) Q :=
  fun _ s hspared hs => .value ⟨hspared, rfl, h s hs⟩

theorem fail {code : HufError} (h : ∀ s, P s → I s) :
    Endures I P (Routine.fail code : CRoutine σ α) Q :=
  fun _ s hspared hs => .error ⟨hspared, rfl, h s hs⟩

theorem modify {change : σ → σ} {Q : Unit → σ → Prop} (h : ∀ s, P s → Q () (change s))
    (hsame : ∀ s, change (schedule [] s) = schedule [] (change s))
    (hallocations : ∀ s, allocations (change s) = allocations s) :
    Endures I P (Routine.modify change : CRoutine σ Unit) Q :=
  fun _ s hspared hs => .value ⟨(hallocations s).symm ▸ hspared, hsame s, h s hs⟩

theorem bind {f : α → CRoutine σ β} {Q' : β → σ → Prop} (h : Endures I P x Q)
    (hnext : ∀ a, Endures I (Q a) (f a) Q') : Endures I P (x >>= f) Q' := by
  intro first s hspared hs
  apply Follows.bind (h first s hspared hs)
  intro a s' t' h'
  rw [h'.same]
  exact hnext a first s' h'.spared h'.inv

/-- A routine that goes on with what it reads, which the schedule is no part of. -/
theorem get_bind {f : σ → CRoutine σ α} (hsame : ∀ s, f (schedule [] s) = f s)
    (h : ∀ s₀, Endures I (fun s => s = s₀ ∧ P s) (f s₀) Q) :
    Endures I P (Routine.get >>= f) Q := by
  intro first s hspared hs
  rw [Routine.get_bind_apply, Routine.get_bind_apply, hsame s]
  exact h s first s hspared ⟨rfl, hs⟩

theorem demand_bind {value : Except Fault β} {f : β → CRoutine σ α}
    (h : ∀ b, value = .ok b → Endures I P (f b) Q) :
    Endures I P (Routine.demand value >>= f) Q := by
  intro first s hspared hs
  cases value with
  | error broken => exact .fault broken
  | ok b => exact h b rfl first s hspared hs

/-- A routine that goes on with a value it computes from what it reads. -/
theorem fetch_bind {value : σ → Except Fault β} {f : β → CRoutine σ α}
    (hsame : ∀ s, value (schedule [] s) = value s) (h : ∀ b, Endures I P (f b) Q) :
    Endures I P (Routine.get >>= fun s => Routine.demand (value s) >>= f) Q := by
  apply get_bind fun s => by rw [hsame s]
  intro s₀
  apply demand_bind
  intro b _
  exact (h b).strengthen fun s hs => hs.2

theorem ite {p : Prop} [Decidable p] {y : CRoutine σ α} (hx : p → Endures I P x Q)
    (hy : ¬ p → Endures I P y Q) : Endures I P (if p then x else y) Q := by
  split
  · exact hx ‹p›
  · exact hy ‹¬ p›

/-- To prove something of every run, prove it of the runs from one state. -/
theorem fix (h : ∀ s₀, P s₀ → Endures I (fun s => s = s₀) x Q) : Endures I P x Q :=
  fun first s hspared hs => h s hs first s hspared rfl

/-- A run that ends with a value is the run without failures. -/
theorem unfailing {a : α} {s s' : σ} (h : Endures I P x Q) (hs : P s)
    (hrun : x s = .ok (.ok a, s')) :
    x (schedule [] s) = .ok (.ok a, schedule [] s') ∧ Q a s' ∧
      Spared (allocations s) (allocations s') := by
  have hfollows := h _ s (Spared.refl _) hs
  rw [hrun] at hfollows
  rcases hfollows.value_right with ⟨t, hother, hparallel⟩
  exact ⟨by rw [hother, hparallel.same], hparallel.inv, hparallel.spared⟩

/-- Where no allocation fails, a run ends as the run without failures. -/
theorem succeeding {a : α} {s t : σ} (h : Endures I P x Q) (hs : P s)
    (halloc : false ∉ allocations s) (hrun : x (schedule [] s) = .ok (.ok a, t)) :
    ∃ s', x s = .ok (.ok a, s') ∧ t = schedule [] s' := by
  have hfollows := h _ s (Spared.refl _) hs
  rw [hrun] at hfollows
  generalize x s = outcome at hfollows
  cases hfollows with
  | stop hstop =>
      rcases hstop.exhausted with ⟨used, hused, -⟩
      exact absurd (hused ▸ List.mem_append_right _ List.mem_cons_self) halloc
  | @value _ s' _ hparallel => exact ⟨s', rfl, hparallel.same⟩

/-- Where a run ends is known from the run without failures. -/
theorem determine (h : Endures I P x fun _ _ => True)
    (hrun : ∀ s a s', P s → x (schedule [] s) = .ok (.ok a, schedule [] s') → Q a s') :
    Endures I P x Q := by
  intro first s hspared hs
  have hfollows := h first s hspared hs
  have hpost := hrun s
  generalize x s = outcome at hfollows
  generalize x (schedule [] s) = other at hfollows hpost
  cases hfollows with
  | stop hstop => exact .stop hstop
  | fault broken => exact .fault broken
  | error hparallel => exact .error hparallel
  | @value a s' t hparallel =>
      have hsame := hparallel.same
      exact .value ⟨hparallel.spared, hsame, hpost a s' hs (by rw [hsame])⟩

/-- What holds of every value a routine returns is known after it. -/
theorem returning (h : Endures I P x Q) {V : α → Prop}
    (hx : ∀ s a s', x s = .ok (.ok a, s') → V a) :
    Endures I P x fun a s => V a ∧ Q a s := by
  intro first s hspared hs
  have hfollows := h first s hspared hs
  have hvalue := hx s
  generalize x s = outcome at hfollows hvalue
  generalize x (schedule [] s) = other at hfollows
  cases hfollows with
  | stop hstop => exact .stop hstop
  | fault broken => exact .fault broken
  | error hparallel => exact .error hparallel
  | value hparallel =>
      exact .value ⟨hparallel.spared, hparallel.same, hvalue _ _ rfl, hparallel.inv⟩

/-- A routine that goes on with an object it reads, which the schedule is no part of. -/
theorem read_bind {place : Place Fault τ β} (hplace : Separate place) {I P : τ → Prop}
    {f : β → CRoutine τ α} {Q : α → τ → Prop}
    (h : ∀ b, Endures I (fun t => P t ∧ place.load t = .ok b) (f b) Q) :
    Endures I P (Routine.within place Routine.get >>= f) Q := by
  intro first t hspared ht
  have hload' := hplace.load t
  cases hload : place.load t with
  | error broken =>
      rw [Routine.within_get_bind_fault hload, Routine.within_get_bind_fault (hload'.trans hload)]
      exact .fault broken
  | ok b =>
      rw [hload] at hload'
      rw [Routine.within_get_bind hload (hplace.store_load t b hload),
        Routine.within_get_bind hload' (hplace.store_load _ b hload')]
      exact h b first t hspared ⟨ht, hload⟩

/-- A routine that goes on with a part of an object it reads. -/
theorem carried_bind {place : Place Fault τ σ} (hplace : Carries place)
    (hstore : ∀ t s, place.load t = .ok s → place.store s t = t) {I P : τ → Prop}
    {f : σ → CRoutine τ α} {Q : α → τ → Prop} (hsame : ∀ s, f (schedule [] s) = f s)
    (h : ∀ s, Endures I (fun t => P t ∧ place.load t = .ok s) (f s) Q) :
    Endures I P (Routine.within place Routine.get >>= f) Q := by
  intro first t hspared ht
  have hload' := hplace.load t
  cases hload : place.load t with
  | error broken =>
      rw [hload] at hload'
      rw [Routine.within_get_bind_fault hload, Routine.within_get_bind_fault hload']
      exact .fault broken
  | ok s =>
      rw [hload] at hload'
      rw [Routine.within_get_bind hload (hstore t s hload),
        Routine.within_get_bind hload' (hstore _ _ hload'), hsame s]
      exact h s first t hspared ⟨ht, hload⟩

/-- A routine on the object with the outcomes of the allocations. -/
theorem within {place : Place Fault τ σ} (hplace : Carries place) {I P : τ → Prop}
    {Q : α → τ → Prop}
    (h : ∀ t s, P t → place.load t = .ok s → Endures (fun s' => I (place.store s' t))
      (fun s' => s' = s) x fun a s' => Q a (place.store s' t)) :
    Endures I P (Routine.within place x) Q := by
  intro first t hspared ht
  have hload' := hplace.load t
  cases hload : place.load t with
  | error broken =>
      rw [hload] at hload'
      rw [Routine.within, hload, Routine.within, hload']
      exact .fault broken
  | ok s =>
      rw [hload] at hload'
      have hspared' : Spared first (allocations s) := hplace.load_allocations t s hload ▸ hspared
      have hparallel : ∀ {I : τ → Prop} {s' t'},
          Parallel first (fun s' => I (place.store s' t)) s' t' →
          Parallel first I (place.store s' t) (place.store t' (schedule [] t)) := by
        intro I s' t' h'
        refine ⟨(hplace.store_allocations t s').symm ▸ h'.spared, ?_, h'.inv⟩
        rw [h'.same]
        exact hplace.store t s'
      apply Follows.within hload hload' (h t s ht hload first s hspared' rfl)
      · intro code s' hstop
        exact ⟨hstop.code, (hplace.store_allocations t s').symm ▸ hstop.exhausted, hstop.inv⟩
      · exact fun _ _ _ => hparallel
      · exact fun _ _ _ => hparallel

/-- A routine on an object next to the outcomes of the allocations. -/
theorem separate {place : Place Fault τ γ} (hplace : Separate place) {x : CRoutine γ α}
    {I P : τ → Prop} {Q : α → τ → Prop}
    (herror : ∀ t b code b', P t → place.load t = .ok b → x b = .ok (.error code, b') →
      I (place.store b' t))
    (hvalue : ∀ t b a b', P t → place.load t = .ok b → x b = .ok (.ok a, b') →
      Q a (place.store b' t)) :
    Endures I P (Routine.within place x) Q := by
  intro first t hspared ht
  have hload' := hplace.load t
  cases hload : place.load t with
  | error broken =>
      rw [hload] at hload'
      rw [Routine.within, hload, Routine.within, hload']
      exact .fault broken
  | ok b =>
      rw [hload] at hload'
      have hparallel : ∀ {I : τ → Prop} {b'}, I (place.store b' t) →
          Parallel first I (place.store b' t) (place.store b' (schedule [] t)) :=
        fun hinv => ⟨(hplace.store_allocations t _).symm ▸ hspared, hplace.store t _, hinv⟩
      apply Follows.within_same hload hload'
      · exact fun code b' hrun => hparallel (herror t b code b' ht hload hrun)
      · exact fun a b' hrun => hparallel (hvalue t b a b' ht hload hrun)

/-- A cleanup after an error. -/
theorem onFailure {cleanup : CRoutine σ β} (h : Endures I P x Q)
    (hcleanup : Cleans I I' cleanup) :
    Endures I' P (Routine.onFailure x cleanup) Q := by
  intro first s hspared hs
  apply Follows.onFailure (h first s hspared hs)
  · exact fun _ _ hstop => hcleanup.stop hstop
  · exact fun _ _ _ herror => hcleanup.follows herror

/-- A cleanup after everything. -/
theorem ensuring {cleanup : CRoutine σ β} (h : Endures I P x Q)
    (herror : Cleans I I' cleanup) (hvalue : ∀ a, Cleans (Q a) (Q' a) cleanup) :
    Endures I' P (Routine.ensuring x cleanup) Q' := by
  intro first s hspared hs
  apply Follows.ensuring (h first s hspared hs)
  · exact fun _ _ hstop => herror.stop hstop
  · exact fun _ _ _ hparallel => herror.follows hparallel
  · exact fun a _ _ hparallel => (hvalue a).follows hparallel

/-- One more object for the time of a run. -/
theorem withLocal {init : γ} {x : CRoutine (γ × σ) α} {I : γ × σ → Prop}
    {Q : α → γ × σ → Prop} (h : Endures I (fun s => s.1 = init ∧ P s.2) x Q) :
    Endures (fun s => ∃ last, I (last, s)) P (Routine.withLocal init x)
      fun a s => ∃ last, Q a (last, s) := by
  intro first s hspared hs
  apply Follows.withLocal (h first (init, s) hspared ⟨rfl, hs⟩)
  · exact fun _ s hstop => ⟨hstop.code, hstop.exhausted, s.1, hstop.inv⟩
  · exact fun _ s t h' => ⟨h'.spared, congrArg Prod.snd h'.same, s.1, h'.inv⟩
  · exact fun _ s t h' => ⟨h'.spared, congrArg Prod.snd h'.same, s.1, h'.inv⟩

/-- A loop. `Before` holds before a test and `Inside` before an iteration. -/
theorem whileLoop {broken : Fault} {cond : α → CRoutine σ Bool}
    {body : α → CRoutine σ (LoopStep α)} (Before Inside : α → σ → Prop)
    (hcond : ∀ a, Endures I (Before a) (cond a)
      fun go s => if go then Inside a s else Q a s)
    (hbody : ∀ a, Endures I (Inside a) (body a) fun step s => match step with
      | .next a => Before a s
      | .leave a => Q a s)
    (fuel : ℕ) (a : α) : Endures I (Before a) (Routine.whileLoop broken cond body fuel a)
      Q := by
  induction fuel generalizing a with
  | zero => exact fun _ _ _ _ => .fault broken
  | succ fuel ih =>
      apply (hcond a).bind
      intro go
      cases go with
      | false => exact pure fun s hs => hs
      | true =>
          apply (hbody a).bind
          intro step
          cases step with
          | next a' => exact ih a'
          | leave a' => exact pure fun s hs => hs

/-- A routine on every element of a list. -/
theorem forM {f : β → CRoutine σ Unit} (xs : List β)
    (h : ∀ b ∈ xs, Endures I P (f b) fun _ => P) :
    Endures I P (xs.forM f) fun _ => P := by
  induction xs with
  | nil => exact pure fun s hs => hs
  | cons b xs ih =>
      apply (h b List.mem_cons_self).bind
      intro _
      exact ih fun b hb => h b (List.mem_cons_of_mem _ hb)

end

end Endures

/-- One allocation. -/
theorem hufMalloc_endures :
    Endures (fun _ => True) (fun _ => True) hufMalloc fun _ _ => True := by
  intro first outcomes h _
  cases outcomes with
  | nil => exact .value ⟨h, rfl, trivial⟩
  | cons outcome later =>
      cases outcome with
      | true => exact .value ⟨h.tail, rfl, trivial⟩
      | false => exact .stop ⟨rfl, h.exhausted, trivial⟩

namespace SelfRun

variable {γ ρ ω : Type}

theorem carries_allocator :
    Carries (allocator : Place Fault (SelfRun γ ρ ω) (List Bool)) where
  load _ := rfl
  load_allocations _ _ h := by cases h; rfl
  store _ _ := rfl
  store_allocations _ _ := rfl

/-- Allocations next to the objects. -/
theorem allocator_endures {α : Type} {x : CRoutine (List Bool) α}
    (hx : Endures (fun _ => True) (fun _ => True) x fun _ _ => True)
    {I P : SelfRun γ ρ ω → Prop} (hP : ∀ s outcomes, P s → P (allocator.store outcomes s))
    (hinv : ∀ s, P s → I s) :
    Endures I P (Routine.within allocator x) fun _ => P := by
  apply Endures.within carries_allocator
  intro s _ hs _
  exact hx.mono (fun _ _ => trivial) (fun outcomes _ => hinv _ (hP s outcomes hs))
    fun _ outcomes _ => hP s outcomes hs

end SelfRun

end LibHuffman
