/-
# Creation under failing allocations

An initialization allocates a number of blocks in a fixed order. It ends with the
first allocation that fails; which one that is says how many of its objects exist.
-/

import LibHuffman.Allocation.Schedule
import LibHuffman.Model.Config
import LibHuffman.Model.Histogram
import LibHuffman.Model.Symbol
import LibHuffman.Model.Tree
import LibHuffman.Streams.Contract

namespace LibHuffman

open Foundation Routine

/-- The first `k` allocations succeed. -/
def Granted (first : List Bool) (k : ℕ) : Prop := false ∉ first.take k

/-- Allocation `k` is the first one that fails. -/
def Refused (first : List Bool) (k : ℕ) : Prop := Granted first k ∧ first[k]? = some false

section

variable {first : List Bool} {j k : ℕ}

theorem granted_zero (first : List Bool) : Granted first 0 := by
  rw [Granted, List.take_zero]
  exact List.not_mem_nil

theorem Granted.succ (h : Granted first k) (hk : first[k]? ≠ some false) :
    Granted first (k + 1) := by
  rw [Granted, List.take_add_one, List.mem_append, not_or]
  refine ⟨h, fun hmem => hk ?_⟩
  cases hfirst : first[k]? with
  | none =>
      rw [hfirst] at hmem
      cases hmem
  | some outcome =>
      rw [hfirst, Option.toList_some, List.mem_singleton] at hmem
      rw [hmem]

theorem Granted.mono (h : Granted first k) (hle : j ≤ k) : Granted first j := by
  intro hmem
  apply h
  rw [← Nat.min_eq_left hle, ← List.take_take] at hmem
  exact List.mem_of_mem_take hmem

/-- An allocation that fails is not among those that succeed. -/
theorem Refused.lt_iff (h : Refused first j) : j < k ↔ ¬ Granted first k := by
  apply Iff.intro
  · intro hlt hgranted
    apply hgranted
    apply List.mem_of_getElem? (i := j)
    rw [List.getElem?_take_of_lt hlt, h.2]
  · intro hgranted
    by_contra hle
    exact hgranted (h.1.mono (Nat.not_lt.mp hle))

theorem Refused.drop_eq (h : Refused first k) : first.drop k = false :: first.drop (k + 1) := by
  rcases List.getElem?_eq_some_iff.mp h.2 with ⟨hlt, hget⟩
  rw [List.drop_eq_getElem_cons hlt, hget]

theorem Refused.exhausted (h : Refused first k) : Exhausted first (first.drop (k + 1)) := by
  refine ⟨first.take k, ?_, h.1⟩
  rw [← h.drop_eq, List.take_append_drop]

theorem Granted.spared (h : Granted first k) : Spared first (first.drop k) :=
  ⟨first.take k, (List.take_append_drop k first).symm, h⟩

/-! ## Blocks -/

/-- One allocation. -/
theorem hufMalloc_ended (h : Granted first k) :
    Ended (fun code rest => code = .memoryAllocation ∧ Refused first k ∧ rest = first.drop (k + 1))
      (fun _ rest => Granted first (k + 1) ∧ rest = first.drop (k + 1))
      (hufMalloc (first.drop k)) := by
  have hdrop : first.drop (k + 1) = (first.drop k).tail := by rw [List.tail_drop]
  have hget : first[k]? = (first.drop k).head? := by rw [List.head?_drop]
  rw [Refused, hdrop]
  cases hrest : first.drop k with
  | nil =>
      rw [hrest] at hget
      exact .value ⟨h.succ (by simp [hget]), rfl⟩
  | cons outcome later =>
      rw [hrest] at hget
      cases outcome with
      | true => exact .value ⟨h.succ (by simp [hget]), rfl⟩
      | false => exact .error ⟨rfl, ⟨h, hget⟩, rfl⟩

section

variable {α : Type}

/-- An initialization has ended with one of `m` allocations, the first of which is
for the object itself. -/
def Incomplete (first : List Bool) (k m : ℕ) (code : HufError) (c : Creation α) : Prop :=
  code = .memoryAllocation ∧ ∃ j, k ≤ j ∧ j < k + m ∧ Refused first j ∧
    c.allocations = first.drop (j + 1) ∧ (c.object = none ↔ j = k)

/-- An initialization creates an object with `m` allocations. -/
def Creates (m : ℕ) (a : α) (x : CRoutine (Creation α) Unit) : Prop :=
  ∀ first k, Granted first k → Ended (Incomplete first k m)
    (fun _ c => Granted first (k + m) ∧ c = ⟨some a, first.drop (k + m)⟩)
    (x ⟨none, first.drop k⟩)

/-- An initialization of one pointer of a larger object. -/
theorem Creates.within {τ : Type} {place : Place Fault τ (Creation α)} {s : τ} {m : ℕ} {a : α}
    {x : CRoutine (Creation α) Unit} (hx : Creates m a x)
    (hload : place.load s = .ok ⟨none, first.drop k⟩) (h : Granted first k)
    {Err : HufError → τ → Prop}
    (herror : ∀ j object, k ≤ j → j < k + m → Refused first j → (object = none ↔ j = k) →
      Err .memoryAllocation (place.store ⟨object, first.drop (j + 1)⟩ s)) :
    Ended Err (fun _ s' => Granted first (k + m) ∧
        s' = place.store ⟨some a, first.drop (k + m)⟩ s)
      (Routine.within place x s) := by
  apply Ended.within hload (hx _ k h)
  · rintro code ⟨object, outcomes⟩ ⟨rfl, j, hle, hlt, hrefused, rfl, hobject⟩
    exact herror j object hle hlt hrefused hobject
  · rintro _ _ ⟨hgranted, rfl⟩
    exact ⟨hgranted, rfl⟩

theorem Creation.malloc_ended (object : Option α) (h : Granted first k) :
    Ended (fun code c => code = .memoryAllocation ∧ Refused first k ∧
        c = ⟨object, first.drop (k + 1)⟩)
      (fun _ c => Granted first (k + 1) ∧ c = ⟨object, first.drop (k + 1)⟩)
      (Creation.malloc ⟨object, first.drop k⟩) := by
  apply Ended.within rfl (hufMalloc_ended h)
  · rintro code _ ⟨hcode, hrefused, rfl⟩
    exact ⟨hcode, hrefused, rfl⟩
  · rintro _ _ ⟨hgranted, rfl⟩
    exact ⟨hgranted, rfl⟩

/-- The block of the object itself, and what the initialization does then. -/
theorem Creation.object_ended {b : α} {m : ℕ} {rest : Unit → CRoutine (Creation α) Unit}
    {Post : Unit → Creation α → Prop} (h : Granted first k) (hm : 0 < m)
    (hrest : Granted first (k + 1) →
      Ended (Incomplete first k m) Post (rest () ⟨some b, first.drop (k + 1)⟩)) :
    Ended (Incomplete first k m) Post
      ((Creation.malloc >>= fun _ => Creation.assign b >>= rest) ⟨none, first.drop k⟩) := by
  apply Ended.bind ((Creation.malloc_ended none h).mono _ fun _ _ hc => hc)
  · rintro _ _ ⟨hgranted, rfl⟩
    exact hrest hgranted
  · rintro code c ⟨hcode, hrefused, rfl⟩
    exact ⟨hcode, k, Nat.le_refl k, by omega, hrefused, rfl, by simp⟩

/-- A second block for an object that exists. -/
theorem Creation.second_ended {b : α} {rest : Unit → CRoutine (Creation α) Unit}
    {Post : Unit → Creation α → Prop} (h : Granted first (k + 1))
    (hrest : Granted first (k + 2) →
      Ended (Incomplete first k 2) Post (rest () ⟨some b, first.drop (k + 2)⟩)) :
    Ended (Incomplete first k 2) Post
      ((Creation.malloc >>= rest) ⟨some b, first.drop (k + 1)⟩) := by
  apply Ended.bind ((Creation.malloc_ended (some b) h).mono _ fun _ _ hc => hc)
  · rintro _ _ ⟨hgranted, rfl⟩
    exact hrest hgranted
  · rintro code c ⟨hcode, hrefused, rfl⟩
    exact ⟨hcode, k + 1, by omega, by omega, hrefused, rfl, by simp⟩

/-! ## The initializations -/

/-- An object with one array. -/
theorem creates_pair (b a : α) :
    Creates 2 a (do
      Creation.malloc
      Creation.assign b
      Creation.malloc
      Creation.assign a) := by
  intro first k h
  apply Creation.object_ended h (by decide)
  intro h
  apply Creation.second_ended h
  intro h
  exact .value ⟨h, rfl⟩

theorem hufTreeInit_creates : Creates 2 ⟨noLeaves, none⟩ hufTreeInit := creates_pair _ _

theorem hufSymbolMappingInit_creates (length : ℕ) :
    Creates 2 ⟨length, List.replicate length none⟩ (hufSymbolMappingInit length) :=
  creates_pair _ _

theorem hufHistogramInit_creates :
    Creates 2 ⟨List.replicate hufHistogramLen 0, 1, hufHistogramLen, sizeMax⟩
      (hufHistogramInit 1 hufHistogramLen) := by
  rw [hufHistogramInit, if_neg (by decide), if_neg (by decide)]
  exact creates_pair _ _

theorem hufConfigInit_creates {ρ ω : Type} (config : HufConfig ρ ω) :
    Creates 1 config (hufConfigInit config) := by
  intro first k h
  apply Ended.bind ((Creation.malloc_ended none h).mono _ fun _ _ hc => hc)
  · rintro _ _ ⟨hgranted, rfl⟩
    exact .value ⟨hgranted, rfl⟩
  · rintro code c ⟨hcode, hrefused, rfl⟩
    exact ⟨hcode, k, Nat.le_refl k, by omega, hrefused, rfl, by simp⟩

/-- How many blocks a buffered stream takes. -/
def bufioBlocks (capacity : ℕ) : ℕ := if capacity = 0 then 1 else 2

theorem hufBufioReadWriterInit_creates {σ : Type} (readWriter : HufReadWriter σ) (capacity : ℕ) :
    Creates (bufioBlocks capacity) (newBufio readWriter capacity)
      (hufBufioReadWriterInit (some readWriter) capacity) := by
  intro first k h
  rw [hufBufioReadWriterInit, requireParam, Routine.pure_bind_apply, bufioBlocks]
  by_cases hcapacity : capacity = 0
  · rw [if_pos hcapacity]
    apply Creation.object_ended h (by decide)
    intro h
    rw [if_neg (not_not.mpr hcapacity)]
    exact .value ⟨h, rfl⟩
  · rw [if_neg hcapacity]
    apply Creation.object_ended h (by decide)
    intro h
    rw [if_pos hcapacity]
    apply Creation.second_ended h
    intro h
    exact .value ⟨h, rfl⟩

end

end

/-! ## What a cleanup needs -/

section

variable {ρ ω : Type}

/-- The objects of the caller after a number of allocations. -/
def World.drop (world : World ρ ω) (k : ℕ) : World ρ ω :=
  { world with heap := { world.heap with allocations := world.heap.allocations.drop k } }

/-- A call is given both streams, and its first allocations succeed: `n` and those
for the buffered writer. -/
def Ready (n : ℕ) (config : Option (HufConfig ρ ω)) (world : World ρ ω) : Prop :=
  ∃ c, config = some c ∧ c.reader ≠ none ∧ c.writer ≠ none ∧
    Granted world.heap.allocations (n + bufioBlocks c.writerBufferSize)

variable {n : ℕ} {config : HufConfig ρ ω} {world : World ρ ω}

theorem Ready.granted (h : Ready n (some config) world) :
    Granted world.heap.allocations (n + bufioBlocks config.writerBufferSize) := by
  rcases h with ⟨c, hc, -, -, hgranted⟩
  cases hc
  exact hgranted

theorem one_le_bufioBlocks (capacity : ℕ) : 1 ≤ bufioBlocks capacity := by
  rw [bufioBlocks]
  split <;> decide

theorem ready_of_granted {reader : HufReadWriter ρ} {writer : HufReadWriter ω}
    (hreader : config.reader = some reader) (hwriter : config.writer = some writer) {k : ℕ}
    (hgranted : Granted world.heap.allocations k)
    (hk : n + bufioBlocks config.writerBufferSize ≤ k) : Ready n (some config) world :=
  ⟨config, rfl, by simp [hreader], by simp [hwriter], hgranted.mono hk⟩

theorem not_ready_of_refused {j : ℕ} (h : Refused world.heap.allocations j)
    (hj : j < n + bufioBlocks config.writerBufferSize) : ¬ Ready n (some config) world :=
  fun hready => h.lt_iff.mp hj hready.granted

theorem not_ready_of_writer (h : config.writer = none) : ¬ Ready n (some config) world := by
  rintro ⟨c, hc, -, hwriter, -⟩
  cases hc
  exact hwriter h

theorem not_ready_of_reader (h : config.reader = none) : ¬ Ready n (some config) world := by
  rintro ⟨c, hc, hreader, -, -⟩
  cases hc
  exact hreader h

end

end LibHuffman
