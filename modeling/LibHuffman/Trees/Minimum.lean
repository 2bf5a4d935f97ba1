/-
# The scan for the two minimal rates

`minimum` is the scan of `huf_tree_from_histogram` over all slots below a bound.
The code starts at a slot below which every rate is zero, which makes no
difference. A rate of zero means that the slot takes no part; the others are
compared as signed numbers.
-/

import LibHuffman.Model.Tree
import Mathlib.Data.Int.Order.Basic
import Mathlib.Data.List.GetD

namespace LibHuffman

/-- The rate of a slot, as the scan compares it. -/
def signedRate (rates : List ℕ) (k : ℕ) : ℤ := toInt64 (rates.getD k 0)

/-- What the scan knows after the slots below a bound. -/
def minimum (rate : ℕ → ℤ) : ℕ → Minimum
  | 0 => ⟨0, 0, none, none⟩
  | n + 1 => (minimum rate n).see n (rate n)

/-- What the indices of a scan of the slots below `n` mean. -/
inductive Scanned (rate : ℕ → ℤ) (n : ℕ) : Minimum → Prop
  /-- No slot takes part. -/
  | absent (hzero : ∀ k < n, rate k = 0) : Scanned rate n ⟨0, 0, none, none⟩
  /-- One slot takes part. -/
  | single {i : ℕ} (hi : i < n) (hlive : rate i ≠ 0) (hzero : ∀ k < n, k ≠ i → rate k = 0) :
      Scanned rate n ⟨rate i, 0, some i, none⟩
  /-- Two slots take part, and no other slot has a smaller rate than either. -/
  | pair {i j : ℕ} (hi : i < n) (hj : j < n) (hne : i ≠ j) (hlive₁ : rate i ≠ 0)
      (hlive₂ : rate j ≠ 0) (hle : rate i ≤ rate j)
      (hleast : ∀ k < n, k ≠ i → k ≠ j → rate k ≠ 0 → rate j ≤ rate k) :
      Scanned rate n ⟨rate i, rate j, some i, some j⟩

section

variable {rate : ℕ → ℤ} {n : ℕ}

/-- A slot that takes no part changes nothing. -/
theorem Scanned.skip {m : Minimum} (h : Scanned rate n m) (hrate : rate n = 0) :
    Scanned rate (n + 1) m := by
  cases h with
  | absent hzero =>
      refine .absent fun k hk => ?_
      rcases Nat.lt_succ_iff_lt_or_eq.mp hk with hk | rfl
      · exact hzero k hk
      · exact hrate
  | single hi hlive hzero =>
      refine .single (by omega) hlive fun k hk hki => ?_
      rcases Nat.lt_succ_iff_lt_or_eq.mp hk with hk | rfl
      · exact hzero k hk hki
      · exact hrate
  | pair hi hj hne hlive₁ hlive₂ hle hleast =>
      refine .pair (by omega) (by omega) hne hlive₁ hlive₂ hle fun k hk hki hkj hlive => ?_
      rcases Nat.lt_succ_iff_lt_or_eq.mp hk with hk | rfl
      · exact hleast k hk hki hkj hlive
      · exact absurd hrate hlive

/-- One step of the scan. -/
theorem Scanned.see {m : Minimum} (h : Scanned rate n m) :
    Scanned rate (n + 1) (m.see n (rate n)) := by
  by_cases hrate : rate n = 0
  · rw [Minimum.see, if_pos hrate]
    exact h.skip hrate
  rw [Minimum.see, if_neg hrate]
  cases h with
  | absent hzero =>
      exact .single (Nat.lt_succ_self n) hrate fun k hk hkn => hzero k (by omega)
  | @single i hi hlive hzero =>
      rw [if_neg hlive]
      by_cases hle : rate n ≤ rate i
      · rw [if_pos hle]
        exact .pair (Nat.lt_succ_self n) (by omega) (by omega) hrate hlive hle
          fun k hk hkn hki hk' => absurd (hzero k (by omega) hki) hk'
      · rw [if_neg hle, if_pos (Or.inl rfl)]
        exact .pair (by omega) (Nat.lt_succ_self n) (by omega) hlive hrate (by omega)
          fun k hk hki hkn hk' => absurd (hzero k (by omega) hki) hk'
  | @pair i j hi hj hne hlive₁ hlive₂ hle hleast =>
      rw [if_neg hlive₁]
      by_cases hfirst : rate n ≤ rate i
      · -- the new rate is the least: the first of the two becomes the second
        rw [if_pos hfirst]
        refine .pair (Nat.lt_succ_self n) (by omega) (by omega) hrate hlive₁ hfirst
          fun k hk hkn hki hk' => ?_
        by_cases hkj : k = j
        · exact hkj ▸ hle
        · exact Int.le_trans hle (hleast k (by omega) hki hkj hk')
      · rw [if_neg hfirst]
        by_cases hsecond : rate n ≤ rate j
        · rw [if_pos (Or.inr hsecond)]
          refine .pair (by omega) (Nat.lt_succ_self n) (by omega) hlive₁ hrate (by omega)
            fun k hk hki hkn hk' => ?_
          by_cases hkj : k = j
          · exact hkj ▸ hsecond
          · exact Int.le_trans hsecond (hleast k (by omega) hki hkj hk')
        · rw [if_neg fun h => h.elim hlive₂ hsecond]
          refine .pair (by omega) (by omega) hne hlive₁ hlive₂ hle fun k hk hki hkj hk' => ?_
          by_cases hkn : k = n
          · exact hkn ▸ Int.le_of_lt (Int.not_le.mp hsecond)
          · exact hleast k (by omega) hki hkj hk'

/-- The scan finds the two minimal rates. -/
theorem scanned_minimum (rate : ℕ → ℤ) (n : ℕ) : Scanned rate n (minimum rate n) := by
  induction n with
  | zero => exact .absent fun k hk => absurd hk (Nat.not_lt_zero k)
  | succ n ih => exact ih.see

theorem minimum_of_zero (hzero : ∀ k < n, rate k = 0) : minimum rate n = ⟨0, 0, none, none⟩ := by
  induction n with
  | zero => rfl
  | succ n ih =>
      rw [minimum, ih fun k hk => hzero k (by omega), Minimum.see,
        if_pos (hzero n (Nat.lt_succ_self n))]

end

section

variable {rates : List ℕ} {start node : ℕ}

theorem load_rate {k : ℕ} (hk : k < rates.length) : load rates k = .ok (rates.getD k 0) := by
  rw [load_of_getElem? (List.getElem?_eq_getElem hk), List.getD_eq_getElem _ _ hk]

theorem signedRate_of_zero {k : ℕ} (hrate : rates.getD k 0 = 0) : signedRate rates k = 0 := by
  rw [signedRate, hrate]
  rfl

theorem foldlM_see (rates : List ℕ) (start count : ℕ) (hcount : start + count ≤ rates.length) :
    (List.range' start count).foldlM
        (fun m j => do return m.see j (toInt64 (← load rates j)))
        (minimum (signedRate rates) start) =
      (.ok (minimum (signedRate rates) (start + count)) : Except Fault Minimum) := by
  induction count generalizing start with
  | zero => rfl
  | succ count ih =>
      rw [List.range'_succ, List.foldlM_cons, load_rate (by omega)]
      show List.foldlM _ (minimum (signedRate rates) (start + 1)) _ = _
      rw [ih (start + 1) (by omega)]
      congr 2
      omega

/-- The scan stays inside of the rates, and slots whose rate is zero need not be
scanned. -/
theorem findMinimum_eq (hzero : ∀ k < start, rates.getD k 0 = 0) (hstart : start ≤ node)
    (hnode : node ≤ rates.length) :
    findMinimum rates start node = .ok (minimum (signedRate rates) node) := by
  have hscan := foldlM_see rates start (node - start) (by omega)
  rw [minimum_of_zero fun k hk => signedRate_of_zero (hzero k hk), Nat.add_sub_cancel' hstart]
    at hscan
  exact hscan

/-- A scan that ends from a state in which the slots before are known. -/
theorem foldlM_scanned {rate : ℕ → ℤ} {m m' : Minimum} (count : ℕ) (hm : Scanned rate start m)
    (hrate : ∀ k, start ≤ k → rate k = signedRate rates k)
    (h : (List.range' start count).foldlM
      (fun m j => do return m.see j (toInt64 (← load rates j))) m = .ok m') :
    Scanned rate (start + count) m' := by
  induction count generalizing start m with
  | zero =>
      cases h
      exact hm
  | succ count ih =>
      rw [List.range'_succ, List.foldlM_cons] at h
      by_cases hlen : start < rates.length
      · rw [load_rate hlen] at h
        have hsee := hm.see
        rw [hrate start (Nat.le_refl start)] at hsee
        have hscanned := ih hsee (fun k hk => hrate k (by omega)) h
        rwa [Nat.add_right_comm, Nat.add_assoc] at hscanned
      · rw [load, List.getElem?_eq_none (Nat.not_lt.mp hlen)] at h
        cases h

/-- The indices that a scan finds are below its end, the first before the second, and
distinct. -/
theorem findMinimum_indices {m : Minimum} (h : findMinimum rates start node = .ok m) :
    (m.index1 = none → m.index2 = none) ∧
      (∀ k, m.index1 = some k ∨ m.index2 = some k → k < node) ∧
      ∀ i, m.index1 = some i → m.index2 ≠ some i := by
  let rate : ℕ → ℤ := fun k => if k < start then 0 else signedRate rates k
  have hscanned : Scanned rate (start + (node - start)) m := by
    apply foldlM_scanned _ (.absent fun k hk => if_pos hk) _ h
    exact fun k hk => if_neg (Nat.not_lt.mpr hk)
  have hzero : ∀ k, rate k ≠ 0 → start ≤ k := by
    intro k hk
    by_contra hlt
    exact hk (if_pos (Nat.not_le.mp hlt))
  cases hscanned with
  | absent => simp
  | @single i hi hlive =>
      have := hzero i hlive
      refine ⟨fun _ => rfl, fun k hk => ?_, fun k _ hk => by cases hk⟩
      rcases hk with hk | hk <;> cases hk
      omega
  | @pair i j hi hj hne hlive hlive' =>
      have := hzero i hlive
      have := hzero j hlive'
      refine ⟨fun h => (by cases h), fun k hk => ?_, fun k hk hk' => ?_⟩
      · rcases hk with hk | hk <;> cases hk <;> omega
      · cases hk
        cases hk'
        exact hne rfl

/-- The search for a rate other than zero ends where there is one. -/
theorem skipZeroRates_eq {k fuel : ℕ} (hlive : rates.getD k 0 ≠ 0) (hstart : start ≤ k)
    (hfuel : k - start < fuel) (hzero : ∀ i < start, rates.getD i 0 = 0) :
    ∃ start', skipZeroRates rates fuel start = .ok start' ∧ start' ≤ k ∧
      ∀ i < start', rates.getD i 0 = 0 := by
  have hlen : k < rates.length := by
    by_contra hlong
    exact hlive (List.getD_eq_default _ _ (Nat.not_lt.mp hlong))
  induction fuel generalizing start with
  | zero => omega
  | succ fuel ih =>
      rw [skipZeroRates, load_rate (by omega)]
      by_cases hrate : rates.getD start 0 = 0
      · have hne : start ≠ k := fun h => hlive (h ▸ hrate)
        obtain ⟨start', hskip, hle, hzero'⟩ := ih (show start + 1 ≤ k by omega) (by omega)
          fun i hi => by
            rcases Nat.lt_succ_iff_lt_or_eq.mp hi with hi | rfl
            · exact hzero i hi
            · exact hrate
        refine ⟨start', ?_, hle, hzero'⟩
        show (if rates.getD start 0 = 0 then _ else _) = _
        rw [if_pos hrate, hskip]
      · refine ⟨start, ?_, hstart, hzero⟩
        show (if rates.getD start 0 = 0 then _ else _) = _
        rw [if_neg hrate]
        rfl

end

end LibHuffman
