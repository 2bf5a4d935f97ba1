/-
# Prefix codes

A code gives a word to every value, and it is prefix-free if no word begins with the
word of another value. Words of such a code can be told apart in any row of them, so
that their lengths satisfy Kraft's inequality: no prefix-free code costs less than the
tree that Huffman's construction builds, and the paths in this tree are such a code.
-/

import LibHuffman.Foundation.Optimal
import Mathlib.InformationTheory.Coding.KraftMcMillan

namespace LibHuffman.Foundation

open InformationTheory

variable {α β : Type}

/-- No word begins with the word of another value. -/
def PrefixFree (values : Finset α) (code : α → List β) : Prop :=
  ∀ a ∈ values, ∀ b ∈ values, code a <+: code b → a = b

instance [DecidableEq α] [DecidableEq β] (values : Finset α) (code : α → List β) :
    Decidable (PrefixFree values code) :=
  inferInstanceAs (Decidable (∀ a ∈ values, ∀ b ∈ values, code a <+: code b → a = b))

/-- What the words cost together, each weighed with its value. -/
def codeCost (weight : α → ℕ) (values : Finset α) (code : α → List β) : ℕ :=
  ∑ a ∈ values, weight a * (code a).length

/-! ## Kraft's inequality -/

/-- Rows of words can be told apart if no word begins with another one. -/
theorem uniquelyDecodable_of_prefixed {words : Set (List β)} (hempty : [] ∉ words)
    (hpre : ∀ w ∈ words, ∀ w' ∈ words, w <+: w' → w = w') : UniquelyDecodable words := by
  intro row
  induction row with
  | nil =>
      intro row' _ hrow' heq
      cases row' with
      | nil => rfl
      | cons w row' =>
          rw [List.flatten_nil, List.flatten_cons, eq_comm, List.append_eq_nil_iff] at heq
          exact absurd (heq.1 ▸ hrow' w List.mem_cons_self) hempty
  | cons w row ih =>
      intro row' hrow hrow' heq
      have hw := hrow w List.mem_cons_self
      cases row' with
      | nil =>
          rw [List.flatten_nil, List.flatten_cons, List.append_eq_nil_iff] at heq
          exact absurd (heq.1 ▸ hw) hempty
      | cons w' row' =>
          have hw' := hrow' w' List.mem_cons_self
          rw [List.flatten_cons, List.flatten_cons] at heq
          have hsame : w = w' := by
            have hbegins : w <+: w' ++ row'.flatten := heq ▸ List.prefix_append w row.flatten
            rcases List.prefix_or_prefix_of_prefix hbegins (List.prefix_append w' row'.flatten)
              with hbefore | hbefore
            · exact hpre w hw w' hw' hbefore
            · exact (hpre w' hw' w hw hbefore).symm
          subst hsame
          rw [List.append_cancel_left_eq] at heq
          rw [ih row' (fun x hx => hrow x (List.mem_cons_of_mem _ hx))
            (fun x hx => hrow' x (List.mem_cons_of_mem _ hx)) heq]

section

variable {values : Finset α} {code : α → List Bool}

theorem PrefixFree.injOn (h : PrefixFree values code) : Set.InjOn code values :=
  fun a ha b hb heq => h a ha b hb (heq ▸ List.prefix_rfl)

/-- The lengths of the words of a prefix-free code satisfy the inequality. -/
theorem PrefixFree.kraft (h : PrefixFree values code) :
    Kraft (values.val.map fun a => (code a).length) := by
  classical
  rw [Kraft, Multiset.map_map]
  show ∑ a ∈ values, (1 / 2 : ℚ) ^ (code a).length ≤ 1
  by_cases hempty : ∃ a ∈ values, code a = []
  · -- an empty word is the only one
    rcases hempty with ⟨a, ha, hnil⟩
    have honly : values = {a} := by
      apply Finset.eq_singleton_iff_unique_mem.mpr
      exact ⟨ha, fun b hb => (h a ha b hb (hnil ▸ List.nil_prefix)).symm⟩
    rw [honly, Finset.sum_singleton, hnil]
    norm_num
  · have hdecodable : UniquelyDecodable (values.image code : Set (List Bool)) := by
      apply uniquelyDecodable_of_prefixed
      · intro hmem
        rw [Finset.coe_image] at hmem
        rcases hmem with ⟨a, ha, hnil⟩
        exact hempty ⟨a, ha, hnil⟩
      · intro w hw w' hw' hpre
        rw [Finset.coe_image] at hw hw'
        rcases hw with ⟨a, ha, rfl⟩
        rcases hw' with ⟨b, hb, rfl⟩
        rw [h a ha b hb hpre]
    have hkraft := kraft_mcmillan_inequality hdecodable
    rw [Finset.sum_image h.injOn, Fintype.card_bool] at hkraft
    have hcast : ((∑ a ∈ values, (1 / 2 : ℚ) ^ (code a).length : ℚ) : ℝ) ≤ 1 := by
      push_cast
      exact_mod_cast hkraft
    exact_mod_cast hcast

end

/-! ## Codes of trees -/

section

variable {values : Finset α} {code : α → List Bool} {weight : α → ℕ} {tree : BinaryTree α}

/-- No prefix-free code costs less than the tree that is built. -/
theorem Pool.Builds.cost_le_codeCost (h : Pool.Builds (Pool.ofLeaves weight values) tree)
    (hcode : PrefixFree values code) : cost weight tree ≤ codeCost weight values code :=
  h.cost_le_depths (fun a => (code a).length) hcode.kraft

/-- The paths in a tree are a prefix-free code. -/
theorem prefixFree_of_paths (hpath : ∀ a ∈ values, Path tree (code a) a) :
    PrefixFree values code :=
  fun a ha b hb hpre => ((hpath a ha).eq_of_prefixed (hpath b hb) hpre).2

/-- A tree costs as much as its paths. -/
theorem cost_eq_codeCost [DecidableEq α] (hnodup : (Foundation.values tree).Nodup)
    (hleaves : (leaves tree : Multiset α) = values.val)
    (hpath : ∀ a ∈ values, Path tree (code a) a) :
    cost weight tree = codeCost weight values code := by
  have hdepth : ∀ leaf ∈ leafDepths tree,
      weight leaf.1 * leaf.2 = weight leaf.1 * (code leaf.1).length := by
    intro leaf hleaf
    rcases leaf with ⟨a, depth⟩
    rcases mem_leafDepths_iff.mp hleaf with ⟨bits, hbits, rfl⟩
    have ha : a ∈ values := by
      rw [← Finset.mem_val, ← hleaves, Multiset.mem_coe]
      exact mem_leaves_iff.mpr ⟨bits, hbits⟩
    have hsame := (hbits.pathTo_eq hnodup).symm.trans ((hpath a ha).pathTo_eq hnodup)
    rw [Option.some.inj hsame]
  rw [cost, List.map_congr_left hdepth, codeCost, Finset.sum, ← hleaves, leaves,
    Multiset.map_coe, List.map_map, Multiset.sum_coe]
  rfl

end

end LibHuffman.Foundation
