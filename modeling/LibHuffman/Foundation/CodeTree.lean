/-
# Binary trees as codes

A binary tree assigns to each of its leaves the path that leads there, a bit for
every step. `scan` follows a bit string through a tree again and again from the
root and collects the leaves; it ends when it has as many as it was asked for,
when a step leads to an absent child, or when the bits run out. `scanBytes` does
the same on bytes and drops what is left of the last byte it needed.

`Path`, `Walks` and `Descent` say without an algorithm what these ends mean.
-/

import LibHuffman.Foundation.BitString
import LibHuffman.Foundation.Preorder

namespace LibHuffman.Foundation

variable {α : Type}

/-- The left child for 0, the right child for 1. -/
def child (bit : Bool) : BinaryTree α → BinaryTree α
  | .nil => .nil
  | .node _ left right => if bit then right else left

/-- The bits lead from the root of the tree to a leaf with this value. -/
inductive Path : BinaryTree α → List Bool → α → Prop
  | leaf (a : α) : Path (.node a .nil .nil) [] a
  | left {a b : α} {l r : BinaryTree α} {bits : List Bool} :
      Path l bits a → Path (.node b l r) (false :: bits) a
  | right {a b : α} {l r : BinaryTree α} {bits : List Bool} :
      Path r bits a → Path (.node b l r) (true :: bits) a

/-- The bits are paths, of at least one step each, to leaves with these values
one after the other. -/
inductive Walks (tree : BinaryTree α) : List Bool → List α → Prop
  | nil : Walks tree [] []
  | cons {bits rest : List Bool} {a : α} {as : List α} :
      Path tree bits a → bits ≠ [] → Walks tree rest as → Walks tree (bits ++ rest) (a :: as)

/-- The path to the leaf with a value, the leftmost one if there are several. -/
def pathTo [DecidableEq α] (a : α) : BinaryTree α → Option (List Bool)
  | .nil => none
  | .node b .nil .nil => if b = a then some [] else none
  | .node _ left right =>
    ((pathTo a left).map (false :: ·)).or ((pathTo a right).map (true :: ·))

/-- A node with at least one child. -/
def Inner : BinaryTree α → Prop
  | .nil => False
  | .node _ left right => left ≠ .nil ∨ right ≠ .nil

/-- The bits lead from the root of the tree to this subtree, through nodes that
have children. -/
inductive Descent : BinaryTree α → List Bool → BinaryTree α → Prop
  | here (tree : BinaryTree α) : Descent tree [] tree
  | step {tree cur : BinaryTree α} {bit : Bool} {bits : List Bool} :
      Inner (child bit tree) → Descent (child bit tree) bits cur → Descent tree (bit :: bits) cur

/-- How a scan over input elements `β` ends. -/
inductive Scan (α β : Type)
  /-- All values were found; the rest of the input is unused. -/
  | finished (symbols : List α) (unused : List β)
  /-- A step led to an absent child. -/
  | stuck (symbols : List α)
  /-- The input ended at the node `cur`, with `need` values missing. -/
  | pending (symbols : List α) (need : ℕ) (cur : BinaryTree α)

/-- A scan that had found `symbols` before. -/
def Scan.after {β : Type} (symbols : List α) : Scan α β → Scan α β
  | .finished later unused => .finished (symbols ++ later) unused
  | .stuck later => .stuck (symbols ++ later)
  | .pending later need cur => .pending (symbols ++ later) need cur

/-- The symbols that a scan has found when it ends. -/
def Scan.symbols {β : Type} : Scan α β → List α
  | .finished symbols _ => symbols
  | .stuck symbols => symbols
  | .pending symbols _ _ => symbols

/-- Follow bits from the node `cur`, back to the root of `tree` at every leaf,
until `need` leaves are found. -/
def scan (tree : BinaryTree α) : BinaryTree α → ℕ → List Bool → Scan α Bool
  | _, 0, bits => .finished [] bits
  | cur, need + 1, [] => .pending [] (need + 1) cur
  | cur, need + 1, bit :: bits =>
    match child bit cur with
    | .nil => .stuck []
    | .node a .nil .nil => (scan tree tree need bits).after [a]
    | .node a left right => scan tree (.node a left right) (need + 1) bits

/-- Follow the bits of whole bytes. -/
def scanBytes (tree : BinaryTree α) : BinaryTree α → ℕ → List UInt8 → Scan α UInt8
  | _, 0, bytes => .finished [] bytes
  | cur, need + 1, [] => .pending [] (need + 1) cur
  | cur, need + 1, byte :: bytes =>
    match scan tree cur (need + 1) (byteBits byte) with
    | .finished symbols _ => .finished symbols bytes
    | .stuck symbols => .stuck symbols
    | .pending symbols need' cur' => (scanBytes tree cur' need' bytes).after symbols

/-! ## Steps of a scan -/

section Scan

variable {β : Type} {tree cur : BinaryTree α} {need : ℕ} {bit : Bool} {bits : List Bool}

@[simp] theorem Scan.after_nil (s : Scan α β) : s.after [] = s := by
  cases s <;> rfl

@[simp] theorem Scan.after_after (xs ys : List α) (s : Scan α β) :
    (s.after ys).after xs = s.after (xs ++ ys) := by
  cases s <;> simp [Scan.after]

@[simp] theorem Scan.symbols_after (xs : List α) (s : Scan α β) :
    (s.after xs).symbols = xs ++ s.symbols := by
  cases s <;> rfl

@[simp] theorem scan_zero : scan tree cur 0 bits = .finished [] bits := by
  cases bits <;> rfl

@[simp] theorem scanBytes_zero {bytes : List UInt8} :
    scanBytes tree cur 0 bytes = .finished [] bytes := by
  cases bytes <;> rfl

@[simp] theorem scan_nil : scan tree cur (need + 1) [] = .pending [] (need + 1) cur := rfl

theorem scan_absent (h : child bit cur = .nil) :
    scan tree cur (need + 1) (bit :: bits) = .stuck [] := by
  rw [scan, h]

theorem scan_leaf {a : α} (h : child bit cur = .node a .nil .nil) :
    scan tree cur (need + 1) (bit :: bits) = (scan tree tree need bits).after [a] := by
  rw [scan, h]

theorem scan_inner (h : Inner (child bit cur)) :
    scan tree cur (need + 1) (bit :: bits) = scan tree (child bit cur) (need + 1) bits := by
  rw [scan]
  cases hchild : child bit cur with
  | nil => rw [hchild] at h; exact h.elim
  | node a left right =>
      rw [hchild] at h
      cases left with
      | node => rfl
      | nil =>
          cases right with
          | node => rfl
          | nil => exact absurd h (by simp [Inner])

/-- A child is absent, a leaf or a node with children. -/
theorem child_cases (bit : Bool) (cur : BinaryTree α) :
    child bit cur = .nil ∨ (∃ a, child bit cur = .node a .nil .nil) ∨ Inner (child bit cur) := by
  cases child bit cur with
  | nil => exact Or.inl rfl
  | node a left right =>
      cases left with
      | node => exact Or.inr (Or.inr (Or.inl (by simp)))
      | nil =>
          cases right with
          | node => exact Or.inr (Or.inr (Or.inr (by simp)))
          | nil => exact Or.inr (Or.inl ⟨a, rfl⟩)

/-- A scan of more bits goes on where the scan of the first ones ended. -/
theorem scan_append (tree cur : BinaryTree α) (need : ℕ) (xs ys : List Bool) :
    scan tree cur need (xs ++ ys) =
      match scan tree cur need xs with
      | .finished symbols unused => .finished symbols (unused ++ ys)
      | .stuck symbols => .stuck symbols
      | .pending symbols need' cur' => (scan tree cur' need' ys).after symbols := by
  induction xs generalizing cur need with
  | nil =>
      cases need with
      | zero => simp
      | succ need => simp
  | cons bit xs ih =>
      cases need with
      | zero => simp
      | succ need =>
          rw [List.cons_append]
          rcases child_cases bit cur with habsent | ⟨a, hleaf⟩ | hinner
          · rw [scan_absent habsent, scan_absent habsent]
          · rw [scan_leaf hleaf, scan_leaf hleaf, ih]
            cases scan tree tree need xs with
            | finished symbols unused => rfl
            | stuck symbols => rfl
            | pending symbols need' cur' => rw [Scan.after_after]; rfl
          · rw [scan_inner hinner, scan_inner hinner, ih]

/-- A scan of more bytes goes on where the scan of the first ones ended. -/
theorem scanBytes_append (tree cur : BinaryTree α) (need : ℕ) (xs ys : List UInt8) :
    scanBytes tree cur need (xs ++ ys) =
      match scanBytes tree cur need xs with
      | .finished symbols unused => .finished symbols (unused ++ ys)
      | .stuck symbols => .stuck symbols
      | .pending symbols need' cur' => (scanBytes tree cur' need' ys).after symbols := by
  induction xs generalizing cur need with
  | nil =>
      cases need with
      | zero => simp
      | succ need => simp [scanBytes]
  | cons byte xs ih =>
      cases need with
      | zero => simp
      | succ need =>
          rw [List.cons_append, scanBytes, scanBytes]
          cases scan tree cur (need + 1) (byteBits byte) with
          | finished symbols unused => rfl
          | stuck symbols => rfl
          | pending symbols need' cur' =>
              dsimp only
              rw [ih]
              cases scanBytes tree cur' need' xs with
              | finished later unused => rfl
              | stuck later => rfl
              | pending later need'' cur'' => exact Scan.after_after _ _ _

/-- The scan of a beginning of the bytes that finish it has finished too, or is pending
with the first of the symbols. -/
theorem scanBytes_finished_append {tree cur : BinaryTree α} {need : ℕ}
    {xs ys unused : List UInt8} {symbols : List α}
    (h : scanBytes tree cur need (xs ++ ys) = .finished symbols unused) :
    (∃ rest, scanBytes tree cur need xs = .finished symbols rest ∧ unused = rest ++ ys) ∨
      ∃ found need' cur', scanBytes tree cur need xs = .pending found need' cur' ∧
        found <+: symbols := by
  rw [scanBytes_append] at h
  cases hscan : scanBytes tree cur need xs with
  | finished found rest =>
      rw [hscan] at h
      injection h with hsymbols hunused
      exact .inl ⟨rest, by rw [hsymbols], hunused.symm⟩
  | stuck found =>
      rw [hscan] at h
      cases h
  | pending found need' cur' =>
      rw [hscan] at h
      have hsymbols := congrArg Scan.symbols h
      rw [Scan.symbols_after] at hsymbols
      exact .inr ⟨found, need', cur', rfl, ⟨_, hsymbols⟩⟩

/-- The rest of a finished scan is a rest of its input, and a proper one if
anything was asked for. -/
theorem scan_finished_unused {symbols : List α} {unused : List Bool}
    (h : scan tree cur need bits = .finished symbols unused) :
    unused.length ≤ bits.length ∧ (need ≠ 0 → unused.length < bits.length) := by
  induction bits generalizing cur need symbols unused with
  | nil =>
      cases need with
      | zero => simp_all
      | succ need => cases h
  | cons bit bits ih =>
      cases need with
      | zero => simp_all
      | succ need =>
          rw [List.length_cons]
          rcases child_cases bit cur with habsent | ⟨a, hleaf⟩ | hinner
          · rw [scan_absent habsent] at h
            cases h
          · rw [scan_leaf hleaf] at h
            cases hlater : scan tree tree need bits with
            | finished later unused' =>
                rw [hlater] at h
                injection h with _ hunused
                have := (ih hlater).1
                rw [hunused] at this
                exact ⟨by omega, fun _ => by omega⟩
            | stuck later => rw [hlater] at h; cases h
            | pending later need' cur' => rw [hlater] at h; cases h
          · rw [scan_inner hinner] at h
            have := (ih h).1
            exact ⟨by omega, fun _ => by omega⟩

/-- A scan of bytes ends as the scan of their bits. -/
theorem scanBytes_eq (tree cur : BinaryTree α) (need : ℕ) (bytes : List UInt8) :
    scanBytes tree cur need bytes =
      match scan tree cur need (bytesBits bytes) with
      | .finished symbols unused =>
          .finished symbols (bytes.drop (bytes.length - unused.length / 8))
      | .stuck symbols => .stuck symbols
      | .pending symbols need' cur' => .pending symbols need' cur' := by
  induction bytes generalizing cur need with
  | nil => cases need <;> rfl
  | cons byte bytes ih =>
      cases need with
      | zero =>
          rw [scan_zero, scanBytes]
          show _ = Scan.finished [] ((byte :: bytes).drop _)
          rw [length_bytesBits, Nat.mul_div_cancel_left _ (by omega), Nat.sub_self, List.drop_zero]
      | succ need =>
          rw [scanBytes, bytesBits_cons, scan_append]
          cases hbyte : scan tree cur (need + 1) (byteBits byte) with
          | stuck symbols => rfl
          | finished symbols unused =>
              have hlt := (scan_finished_unused hbyte).2 (Nat.succ_ne_zero need)
              rw [length_byteBits] at hlt
              have hbytes : (unused ++ bytesBits bytes).length / 8 = bytes.length := by
                simp only [List.length_append, length_bytesBits]
                omega
              simp only [hbytes, List.length_cons, Nat.add_sub_cancel_left, List.drop_succ_cons,
                List.drop_zero]
          | pending symbols need' cur' =>
              simp only [ih]
              cases hrest : scan tree cur' need' (bytesBits bytes) with
              | stuck later => rfl
              | pending later need'' cur'' => rfl
              | finished later unused =>
                  have hle := (scan_finished_unused hrest).1
                  rw [length_bytesBits] at hle
                  have hdrop : (byte :: bytes).length - unused.length / 8 =
                      (bytes.length - unused.length / 8) + 1 := by
                    simp only [List.length_cons]
                    omega
                  show _ = Scan.finished (symbols ++ later) ((byte :: bytes).drop _)
                  rw [hdrop]
                  rfl

/-- Every bit brings a scan closer to its end: it is one level deeper in the
tree, or has one value less to find. -/
theorem scan_progress {symbols : List α} {need' : ℕ} {cur' : BinaryTree α}
    (h : scan tree cur need bits = .pending symbols need' cur') :
    symbols.length + need' = need ∧
      need' * (tree.height + 1) + cur'.height + bits.length ≤
        need * (tree.height + 1) + cur.height := by
  induction bits generalizing cur need symbols with
  | nil =>
      cases need with
      | zero => cases h
      | succ need =>
          injection h with hsymbols hneed hcur
          subst hsymbols hneed hcur
          simp
  | cons bit bits ih =>
      cases need with
      | zero => rw [scan_zero] at h; cases h
      | succ need =>
          rcases child_cases bit cur with habsent | ⟨a, hleaf⟩ | hinner
          · rw [scan_absent habsent] at h
            cases h
          · rw [scan_leaf hleaf] at h
            cases hlater : scan tree tree need bits with
            | finished later unused => rw [hlater] at h; cases h
            | stuck later => rw [hlater] at h; cases h
            | pending later need'' cur'' =>
                rw [hlater] at h
                injection h with hsymbols hneed hcur
                subst hsymbols hneed hcur
                obtain ⟨hcount, hmeasure⟩ := ih hlater
                rw [List.length_cons, List.length_append, Nat.succ_mul]
                exact ⟨by simp; omega, by omega⟩
          · rw [scan_inner hinner] at h
            obtain ⟨hcount, hmeasure⟩ := ih h
            have hlower : (child bit cur).height + 1 ≤ cur.height := by
              cases cur with
              | nil => exact hinner.elim
              | node b left right =>
                  show (if bit then right else left).height + 1 ≤ max left.height right.height + 1
                  split <;> omega
            rw [List.length_cons]
            exact ⟨hcount, by omega⟩

/-- A scan never ends at an absent node, unless it starts at one. -/
theorem scan_pending_ne_nil {symbols : List α} {need' : ℕ} {cur' : BinaryTree α}
    (htree : tree ≠ .nil) (hcur : cur ≠ .nil)
    (h : scan tree cur need bits = .pending symbols need' cur') : cur' ≠ .nil ∧ 0 < need' := by
  induction bits generalizing cur need symbols with
  | nil =>
      cases need with
      | zero => cases h
      | succ need =>
          injection h with _ hneed hcur'
          exact ⟨hcur' ▸ hcur, hneed ▸ Nat.succ_pos need⟩
  | cons bit bits ih =>
      cases need with
      | zero => rw [scan_zero] at h; cases h
      | succ need =>
          rcases child_cases bit cur with habsent | ⟨a, hleaf⟩ | hinner
          · rw [scan_absent habsent] at h
            cases h
          · rw [scan_leaf hleaf] at h
            cases hlater : scan tree tree need bits with
            | finished later unused => rw [hlater] at h; cases h
            | stuck later => rw [hlater] at h; cases h
            | pending later need'' cur'' =>
                rw [hlater] at h
                injection h with _ hneed hcur'
                subst hneed hcur'
                exact ih htree hlater
          · rw [scan_inner hinner] at h
            refine ih (fun hnil => ?_) h
            rw [hnil] at hinner
            exact hinner

end Scan

/-! ## What the ends of a scan mean -/

section Meaning

variable {tree cur sub : BinaryTree α} {need : ℕ} {bit : Bool} {bits rest : List Bool} {a : α}
  {symbols : List α}

theorem path_nil_iff : Path cur [] a ↔ cur = .node a .nil .nil := by
  apply Iff.intro
  · rintro ⟨⟩
    rfl
  · rintro rfl
    exact .leaf a

theorem path_cons_iff : Path cur (bit :: bits) a ↔ Path (child bit cur) bits a := by
  apply Iff.intro
  · rintro (_ | h | h) <;> exact h
  · intro h
    cases cur with
    | nil => cases h
    | node b left right =>
        cases bit with
        | false => exact .left h
        | true => exact .right h

theorem Path.ne_nil (h : Path cur bits a) : cur ≠ .nil := by
  rintro rfl
  cases h

theorem Path.inner (h : Path cur (bit :: bits) a) : Inner cur := by
  cases h with
  | left h => exact Or.inl h.ne_nil
  | right h => exact Or.inr h.ne_nil

/-- A scan that starts with a path finds its leaf. -/
theorem Path.scan_eq (h : Path cur bits a) (hne : bits ≠ []) (need : ℕ) (rest : List Bool) :
    scan tree cur (need + 1) (bits ++ rest) = (scan tree tree need rest).after [a] := by
  induction bits generalizing cur with
  | nil => exact absurd rfl hne
  | cons bit bits ih =>
      have hchild := path_cons_iff.mp h
      rw [List.cons_append]
      cases bits with
      | nil => exact scan_leaf (path_nil_iff.mp hchild)
      | cons bit' bits => rw [scan_inner hchild.inner, ih hchild (List.cons_ne_nil _ _)]

/-- A scan that starts with walks finds their leaves. -/
theorem Walks.scan_eq (h : Walks tree bits symbols) (more : ℕ) (rest : List Bool) :
    scan tree tree (symbols.length + more) (bits ++ rest) =
      (scan tree tree more rest).after symbols := by
  induction h with
  | nil => simp
  | @cons first later a as hpath hne _ ih =>
      rw [List.length_cons, Nat.add_right_comm, List.append_assoc, hpath.scan_eq hne, ih,
        Scan.after_after]
      rfl

/-- A scan that starts with a descent goes on below. -/
theorem Descent.scan_eq (h : Descent cur bits sub) (need : ℕ) (rest : List Bool) :
    scan tree cur (need + 1) (bits ++ rest) = scan tree sub (need + 1) rest := by
  induction h with
  | here => rfl
  | step hinner _ ih => rw [List.cons_append, scan_inner hinner, ih]

/-- A bit string starts with a path, or with a step to an absent child, or ends
before either. -/
theorem path_or_descent (cur : BinaryTree α) (bits : List Bool) :
    (∃ first rest a, bits = first ++ rest ∧ first ≠ [] ∧ Path cur first a) ∨
      (∃ first bit rest sub, bits = first ++ bit :: rest ∧ Descent cur first sub ∧
        child bit sub = .nil) ∨
      ∃ sub, Descent cur bits sub := by
  induction bits generalizing cur with
  | nil => exact Or.inr (Or.inr ⟨cur, .here cur⟩)
  | cons bit bits ih =>
      rcases child_cases bit cur with habsent | ⟨a, hleaf⟩ | hinner
      · exact Or.inr (Or.inl ⟨[], bit, bits, cur, rfl, .here cur, habsent⟩)
      · refine Or.inl ⟨[bit], bits, a, rfl, List.cons_ne_nil _ _, ?_⟩
        rw [path_cons_iff, hleaf]
        exact .leaf a
      · rcases ih (child bit cur) with ⟨first, rest, a, rfl, -, hpath⟩ |
          ⟨first, bit', rest, sub, rfl, hdescent, habsent⟩ | ⟨sub, hdescent⟩
        · exact Or.inl ⟨bit :: first, rest, a, rfl, List.cons_ne_nil _ _,
            path_cons_iff.mpr hpath⟩
        · exact Or.inr (Or.inl ⟨bit :: first, bit', rest, sub, rfl, .step hinner hdescent,
            habsent⟩)
        · exact Or.inr (Or.inr ⟨sub, .step hinner hdescent⟩)

/-- The bits consist of fewer than `need` walks and a step that leads to an
absent child, and further bits. -/
def Strays (tree : BinaryTree α) (need : ℕ) (bits : List Bool) (symbols : List α) : Prop :=
  ∃ walked partway bit rest sub, bits = walked ++ (partway ++ bit :: rest) ∧
    Walks tree walked symbols ∧ symbols.length < need ∧ Descent tree partway sub ∧
    child bit sub = .nil

/-- The bits consist of fewer than `need` walks and the beginning of one. -/
def Starves (tree : BinaryTree α) (need : ℕ) (bits : List Bool) (symbols : List α) : Prop :=
  ∃ walked partway sub, bits = walked ++ partway ∧
    Walks tree walked symbols ∧ symbols.length < need ∧ Descent tree partway sub

theorem Strays.scan_eq (h : Strays tree need bits symbols) :
    scan tree tree need bits = .stuck symbols := by
  rcases h with ⟨walked, partway, bit, rest, sub, rfl, hwalks, hlt, hdescent, habsent⟩
  obtain ⟨more, rfl⟩ : ∃ more, need = symbols.length + (more + 1) :=
    ⟨need - symbols.length - 1, by omega⟩
  simp [hwalks.scan_eq, hdescent.scan_eq, scan_absent habsent, Scan.after]

theorem Starves.scan_eq (h : Starves tree need bits symbols) :
    ∃ need' cur, scan tree tree need bits = .pending symbols need' cur := by
  rcases h with ⟨walked, partway, sub, rfl, hwalks, hlt, hdescent⟩
  obtain ⟨more, rfl⟩ : ∃ more, need = symbols.length + (more + 1) :=
    ⟨need - symbols.length - 1, by omega⟩
  have hscan : scan tree tree (more + 1) (partway ++ []) = scan tree sub (more + 1) [] :=
    hdescent.scan_eq more []
  rw [List.append_nil] at hscan
  refine ⟨more + 1, sub, ?_⟩
  simp [hwalks.scan_eq, hscan, scan_nil, Scan.after]

/-- A bit string starts with the walks asked for, or strays, or starves. -/
theorem walks_or_strays_or_starves (tree : BinaryTree α) (need : ℕ) (bits : List Bool) :
    (∃ walked rest symbols, bits = walked ++ rest ∧ Walks tree walked symbols ∧
        symbols.length = need) ∨
      (∃ symbols, Strays tree need bits symbols) ∨ ∃ symbols, Starves tree need bits symbols := by
  induction need generalizing bits with
  | zero => exact Or.inl ⟨[], bits, [], rfl, .nil, rfl⟩
  | succ need ih =>
      rcases path_or_descent tree bits with ⟨first, rest, a, rfl, hne, hpath⟩ |
        ⟨first, bit, rest, sub, rfl, hdescent, habsent⟩ | ⟨sub, hdescent⟩
      · rcases ih rest with ⟨walked, rest, symbols, rfl, hwalks, rfl⟩ |
          ⟨symbols, walked, partway, bit, rest, sub, rfl, hwalks, hlt, hstrays⟩ |
          ⟨symbols, walked, partway, sub, rfl, hwalks, hlt, hstarves⟩
        · exact Or.inl ⟨first ++ walked, rest, a :: symbols, by simp, .cons hpath hne hwalks, rfl⟩
        · refine Or.inr (Or.inl ⟨a :: symbols, first ++ walked, partway, bit, rest, sub, by simp,
            .cons hpath hne hwalks, ?_, hstrays⟩)
          simp only [List.length_cons]
          omega
        · refine Or.inr (Or.inr ⟨a :: symbols, first ++ walked, partway, sub, by simp,
            .cons hpath hne hwalks, ?_, hstarves⟩)
          simp only [List.length_cons]
          omega
      · exact Or.inr (Or.inl ⟨[], [], first, bit, rest, sub, rfl, .nil, Nat.succ_pos need,
          hdescent, habsent⟩)
      · exact Or.inr (Or.inr ⟨[], [], bits, sub, rfl, .nil, Nat.succ_pos need, hdescent⟩)

end Meaning

/-! ## Paths to values -/

section Values

variable {tree : BinaryTree α} {bits : List Bool} {a : α}

theorem Path.mem_values (h : Path tree bits a) : a ∈ values tree := by
  induction h with
  | leaf => exact List.mem_cons_self
  | left _ ih => exact List.mem_cons_of_mem _ (List.mem_append_left _ ih)
  | right _ ih => exact List.mem_cons_of_mem _ (List.mem_append_right _ ih)

theorem Path.map {β : Type} (f : α → β) (h : Path tree bits a) :
    Path (tree.map f) bits (f a) := by
  induction h with
  | leaf => exact .leaf (f _)
  | left _ ih => exact .left ih
  | right _ ih => exact .right ih

/-- A path is shorter than the tree has nodes. -/
theorem Path.length_lt (h : Path tree bits a) : bits.length < tree.numNodes := by
  induction h with
  | leaf => exact Nat.zero_lt_one
  | left _ ih =>
      simp only [List.length_cons, BinaryTree.numNodes]
      omega
  | right _ ih =>
      simp only [List.length_cons, BinaryTree.numNodes]
      omega

variable [DecidableEq α]

theorem pathTo_node {b : α} {l r : BinaryTree α} (hchild : l ≠ .nil ∨ r ≠ .nil) :
    pathTo a (.node b l r) =
      ((pathTo a l).map (false :: ·)).or ((pathTo a r).map (true :: ·)) := by
  rw [pathTo]
  rintro rfl rfl
  simp at hchild

theorem path_of_pathTo (h : pathTo a tree = some bits) : Path tree bits a := by
  induction tree generalizing bits with
  | nil => cases h
  | node b l r ihLeft ihRight =>
      by_cases hchild : l ≠ .nil ∨ r ≠ .nil
      · rw [pathTo_node hchild, Option.or_eq_some_iff] at h
        rcases h with h | ⟨-, h⟩
        · obtain ⟨bits', hbits', rfl⟩ := Option.map_eq_some_iff.mp h
          exact .left (ihLeft hbits')
        · obtain ⟨bits', hbits', rfl⟩ := Option.map_eq_some_iff.mp h
          exact .right (ihRight hbits')
      · rw [not_or, not_not, not_not] at hchild
        rcases hchild with ⟨rfl, rfl⟩
        rw [pathTo] at h
        split at h
        · rename_i hab
          cases h
          exact hab ▸ .leaf b
        · cases h

/-- In a tree without duplicates the path to a leaf is the only one. -/
theorem Path.pathTo_eq (h : Path tree bits a) (hnodup : (values tree).Nodup) :
    pathTo a tree = some bits := by
  induction h with
  | leaf a => rw [pathTo, if_pos rfl]
  | @left a b l r bits h ih =>
      rw [values, List.nodup_cons, List.nodup_append] at hnodup
      rw [pathTo_node (Or.inl h.ne_nil), ih hnodup.2.1]
      rfl
  | @right a b l r bits h ih =>
      rw [values, List.nodup_cons, List.nodup_append] at hnodup
      have hleft : pathTo a l = none := by
        cases hpath : pathTo a l with
        | none => rfl
        | some bits' =>
            exact absurd rfl (hnodup.2.2.2 a (path_of_pathTo hpath).mem_values a h.mem_values)
      rw [pathTo_node (Or.inr h.ne_nil), ih hnodup.2.2.1, hleft]
      rfl

end Values

/-! ## Scans of bytes -/

section Bytes

variable {tree : BinaryTree α} {need : ℕ} {bytes rest : List UInt8} {symbols : List α}

/-- The bits are the beginning of these bytes, and of no fewer of them. -/
def Fills (bits : List Bool) (bytes : List UInt8) : Prop :=
  bits <+: bytesBits bytes ∧ ∀ fewer < bytes.length, 8 * fewer < bits.length

theorem fills_pack (bits : List Bool) : Fills bits (pack bits) := by
  obtain ⟨padding, hpadding, hbits⟩ := bytesBits_pack bits
  have hlen := congrArg List.length hbits
  rw [length_bytesBits, List.length_append, List.length_replicate] at hlen
  exact ⟨⟨_, hbits.symm⟩, fun fewer hfewer => by omega⟩

/-- A scan of bytes finishes on the least number of bytes whose bits begin with
the walks asked for. -/
theorem scanBytes_finished_iff :
    scanBytes tree tree need bytes = .finished symbols rest ↔
      ∃ used walked, bytes = used ++ rest ∧ Fills walked used ∧ Walks tree walked symbols ∧
        symbols.length = need := by
  apply Iff.intro
  · intro h
    rw [scanBytes_eq] at h
    rcases walks_or_strays_or_starves tree need (bytesBits bytes) with
      ⟨walked, unused, symbols', hbits, hwalks, hlen⟩ | ⟨symbols', hstrays⟩ | ⟨symbols', hstarves⟩
    · have hscan : scan tree tree need (bytesBits bytes) = .finished symbols' unused := by
        have := hwalks.scan_eq 0 unused
        rw [Nat.add_zero, hlen, ← hbits, scan_zero, Scan.after, List.append_nil] at this
        exact this
      have hlength := congrArg List.length hbits
      rw [length_bytesBits, List.length_append] at hlength
      rw [hscan] at h
      injection h with hsymbols hrest
      subst hsymbols hrest
      refine ⟨bytes.take (bytes.length - unused.length / 8), walked,
        (List.take_append_drop _ _).symm, ⟨?_, fun fewer hfewer => ?_⟩, hwalks, hlen⟩
      · refine List.prefix_of_prefix_length_le ⟨unused, hbits.symm⟩ ?_ ?_
        · exact ⟨_, by rw [← bytesBits_append, List.take_append_drop]⟩
        · simp only [length_bytesBits, List.length_take]
          omega
      · simp only [List.length_take] at hfewer
        omega
    · rw [hstrays.scan_eq] at h
      cases h
    · obtain ⟨need', cur, hscan⟩ := hstarves.scan_eq
      rw [hscan] at h
      cases h
  · intro h'
    rcases h' with ⟨used, walked, rfl, ⟨⟨tail, hused⟩, hleast⟩, hwalks, rfl⟩
    have hlength := congrArg List.length hused
    rw [length_bytesBits, List.length_append] at hlength
    have htail : tail.length < 8 := by
      by_contra hlong
      have := hleast (used.length - 1) (by omega)
      omega
    have hbits : bytesBits (used ++ rest) = walked ++ (tail ++ bytesBits rest) := by
      rw [bytesBits_append, ← hused, List.append_assoc]
    have hscan := hwalks.scan_eq 0 (tail ++ bytesBits rest)
    rw [Nat.add_zero, ← hbits, scan_zero, Scan.after, List.append_nil] at hscan
    have hrest : (tail ++ bytesBits rest).length / 8 = rest.length := by
      simp only [List.length_append, length_bytesBits]
      omega
    rw [scanBytes_eq, hscan]
    show Scan.finished symbols ((used ++ rest).drop _) = Scan.finished symbols rest
    rw [hrest, List.length_append, Nat.add_sub_cancel, List.drop_left]

/-- A scan of bytes is stuck where their bits stray. -/
theorem scanBytes_stuck_iff :
    scanBytes tree tree need bytes = .stuck symbols ↔
      Strays tree need (bytesBits bytes) symbols := by
  apply Iff.intro
  · intro h
    rw [scanBytes_eq] at h
    rcases walks_or_strays_or_starves tree need (bytesBits bytes) with
      ⟨walked, unused, symbols', hbits, hwalks, hlen⟩ | ⟨symbols', hstrays⟩ | ⟨symbols', hstarves⟩
    · have hscan := hwalks.scan_eq 0 unused
      rw [Nat.add_zero, hlen, ← hbits, scan_zero, Scan.after] at hscan
      rw [hscan] at h
      cases h
    · rw [hstrays.scan_eq] at h
      injection h with hsymbols
      exact hsymbols ▸ hstrays
    · obtain ⟨need', cur, hscan⟩ := hstarves.scan_eq
      rw [hscan] at h
      cases h
  · intro h
    rw [scanBytes_eq, h.scan_eq]

/-- A scan of bytes is pending where their bits starve. -/
theorem scanBytes_pending_iff :
    (∃ need' cur, scanBytes tree tree need bytes = .pending symbols need' cur) ↔
      Starves tree need (bytesBits bytes) symbols := by
  apply Iff.intro
  · intro h'
    rcases h' with ⟨need', cur, h⟩
    rw [scanBytes_eq] at h
    rcases walks_or_strays_or_starves tree need (bytesBits bytes) with
      ⟨walked, unused, symbols', hbits, hwalks, hlen⟩ | ⟨symbols', hstrays⟩ | ⟨symbols', hstarves⟩
    · have hscan := hwalks.scan_eq 0 unused
      rw [Nat.add_zero, hlen, ← hbits, scan_zero, Scan.after] at hscan
      rw [hscan] at h
      cases h
    · rw [hstrays.scan_eq] at h
      cases h
    · obtain ⟨need'', cur', hscan⟩ := hstarves.scan_eq
      rw [hscan] at h
      injection h with hsymbols
      exact hsymbols ▸ hstarves
  · intro h
    obtain ⟨need', cur, hscan⟩ := h.scan_eq
    exact ⟨need', cur, by rw [scanBytes_eq, hscan]⟩

end Bytes

end LibHuffman.Foundation
