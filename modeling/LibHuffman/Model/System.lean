/-
# Return codes, faults and memory

What every source file of the library shares: the codes of `errors.h`, the sizes
of `common.h` and `tree.h`, `huf_malloc`, and the ways in which a C program loses
its meaning. A code other than `HUF_ERROR_SUCCESS` is the error of a routine;
returning normally is `HUF_ERROR_SUCCESS`.

Which allocations succeed is not up to the program. The outcomes of the coming
allocations are part of the state; past the end of the list they all succeed, so
the empty list is a system that never runs out of memory.
-/

import LibHuffman.Foundation.Routine
import Mathlib.Algebra.Group.Int.Defs
import Mathlib.Algebra.Group.Nat.Defs

namespace LibHuffman

open Foundation

/-- `huf_error_t`, without `HUF_ERROR_SUCCESS`. -/
inductive HufError
  | memoryAllocation
  | invalidArgument
  | readWrite
  | fatal
  | btreeOverflow
  | btreeCorrupted
  deriving DecidableEq, Repr

/-- `huf_error_string` -/
def hufErrorString : HufError → String
  | .memoryAllocation => "Failed to allocate the requested memory block"
  | .invalidArgument => "An invalid argument was specified to the function"
  | .readWrite => "Failed on read/write operation"
  | .fatal => "Fatal error"
  | .btreeOverflow => "Block is corrupted, Huffman tree has impossible size"
  | .btreeCorrupted => "Huffman tree is corrupted and cannot be used to decode the block"

/-- What leaves a C program without a defined continuation. -/
inductive Fault
  /-- A field is accessed through a null pointer. -/
  | nullPointer
  /-- A field is accessed through, or `free` is given, a released pointer. -/
  | releasedPointer
  /-- An access outside of the allocated block or array. -/
  | outOfBounds
  /-- A signed 64-bit sum that does not fit. -/
  | signedOverflow
  /-- A loop or a recursion that does not end. -/
  | endless
  deriving DecidableEq, Repr

/-- A C function over the objects `σ`. -/
abbrev CRoutine (σ α : Type) : Type := Routine Fault HufError σ α

/-! ## Sizes -/

/-- `HUF_ASCII_COUNT` -/
def hufAsciiCount : ℕ := 256

/-- `HUF_BTREE_LEN`, maximum length of the serialized tree in words. -/
def hufBtreeLen : ℕ := 1024

/-- `HUF_HISTOGRAM_LEN` -/
def hufHistogramLen : ℕ := 512

/-- `HUF_1KIB_BUFFER` -/
def huf1kibBuffer : ℕ := 1024

/-- `HUF_LEAF_NODE`, the word that stands for an absent child. -/
def hufLeafNode : Int16 := -1

/-- The largest `size_t`, which is also `(size_t) -1`. -/
def sizeMax : ℕ := 2 ^ 64 - 1

/-- Subtraction of two `size_t`, which wraps below zero. -/
def sizeSub (a b : ℕ) : ℕ := if b ≤ a then a - b else sizeMax + 1 - (b - a)

@[simp] theorem sizeSub_of_le {a b : ℕ} (h : b ≤ a) : sizeSub a b = a - b := if_pos h

/-- Conversion of a `uint64_t` to `int64_t`. -/
def toInt64 (value : ℕ) : ℤ := if value < 2 ^ 63 then value else (value : ℤ) - 2 ^ 64

/-- Conversion of an `int64_t` to `uint64_t`. -/
def ofInt64 (value : ℤ) : ℕ := (value % 2 ^ 64).toNat

/-! ## Memory blocks -/

section Memory

variable {α : Type}

/-- Element `i` of an array. -/
def load (array : List α) (i : ℕ) : Except Fault α :=
  match array[i]? with
  | some a => .ok a
  | none => .error .outOfBounds

/-- An array with element `i` replaced. -/
def store (array : List α) (i : ℕ) (a : α) : Except Fault (List α) :=
  if i < array.length then .ok (array.set i a) else .error .outOfBounds

/-- The `count` elements from `offset` on. -/
def slice (block : List α) (offset count : ℕ) : Except Fault (List α) :=
  if offset + count ≤ block.length then .ok ((block.drop offset).take count)
  else .error .outOfBounds

/-- `memcpy` of `source` to position `offset` of a block. -/
def memcpy (block : List α) (offset : ℕ) (source : List α) : Except Fault (List α) :=
  if offset + source.length ≤ block.length then
    .ok (block.take offset ++ source ++ block.drop (offset + source.length))
  else .error .outOfBounds

/-- Follow a pointer. -/
def deref (pointer : Option α) : Except Fault α :=
  match pointer with
  | some a => .ok a
  | none => .error .nullPointer

@[simp] theorem deref_some (a : α) : deref (some a) = .ok a := rfl

theorem load_of_getElem? {array : List α} {i : ℕ} {a : α} (h : array[i]? = some a) :
    load array i = .ok a := by
  rw [load, h]

theorem store_of_lt {array : List α} {i : ℕ} {a : α} (h : i < array.length) :
    store array i a = .ok (array.set i a) := if_pos h

theorem slice_of_le {block : List α} {offset count : ℕ} (h : offset + count ≤ block.length) :
    slice block offset count = .ok ((block.drop offset).take count) := if_pos h

theorem memcpy_of_le {block source : List α} {offset : ℕ}
    (h : offset + source.length ≤ block.length) :
    memcpy block offset source =
      .ok (block.take offset ++ source ++ block.drop (offset + source.length)) := if_pos h

theorem memcpy_of_lt {block source : List α} {offset : ℕ}
    (h : block.length < offset + source.length) :
    memcpy block offset source = .error .outOfBounds := if_neg (by omega)

theorem length_slice {block data : List α} {offset count : ℕ}
    (h : slice block offset count = .ok data) : data.length = count := by
  rw [slice] at h
  split at h
  · cases h
    rw [List.length_take, List.length_drop]
    omega
  · cases h

theorem le_of_slice {block data : List α} {offset count : ℕ}
    (h : slice block offset count = .ok data) : offset + count ≤ block.length := by
  rw [slice] at h
  split at h
  · assumption
  · cases h

theorem length_store {array array' : List α} {i : ℕ} {a : α} (h : store array i a = .ok array') :
    array'.length = array.length := by
  rw [store] at h
  split at h
  · cases h
    exact List.length_set ..
  · cases h

theorem length_memcpy {block source data : List α} {offset : ℕ}
    (h : memcpy block offset source = .ok data) : data.length = block.length := by
  rw [memcpy] at h
  split at h
  · cases h
    simp only [List.length_append, List.length_take, List.length_drop]
    omega
  · cases h

end Memory

/-- `routine_param_m` for a parameter that may be a null pointer. -/
def requireParam {α σ : Type} : Option α → CRoutine σ α
  | some a => pure a
  | none => Routine.fail .invalidArgument

/-! ## Allocation -/

/-- `huf_malloc`. The block is zeroed by `calloc`; what it is used for is up to
the caller. -/
def hufMalloc : CRoutine (List Bool) Unit := fun outcomes =>
  match outcomes with
  | [] => .ok (.ok (), [])
  | true :: later => .ok (.ok (), later)
  | false :: later => .ok (.error .memoryAllocation, later)

/-- A pointer that is being initialized, and the outcomes of the coming
allocations. -/
structure Creation (α : Type) where
  /-- `NULL` until the object is allocated. -/
  object : Option α
  allocations : List Bool

section

variable {α : Type}

/-- Where an initialization finds the allocator. -/
def Creation.allocator : Place Fault (Creation α) (List Bool) where
  load c := .ok c.allocations
  store allocations c := { c with allocations }

/-- Allocate one block. -/
def Creation.malloc : CRoutine (Creation α) Unit :=
  Routine.within Creation.allocator hufMalloc

/-- Set the pointer. -/
def Creation.assign (object : α) : CRoutine (Creation α) Unit :=
  Routine.modify fun c => { c with object := some object }

@[simp] theorem Creation.malloc_bind_apply {β : Type} (object : Option α)
    (f : Unit → CRoutine (Creation α) β) :
    (Creation.malloc >>= f) ⟨object, []⟩ = f () ⟨object, []⟩ := rfl

@[simp] theorem Creation.assign_bind_apply {β : Type} (object : α) (c : Creation α)
    (f : Unit → CRoutine (Creation α) β) :
    (Creation.assign object >>= f) c = f () ⟨some object, c.allocations⟩ := rfl

@[simp] theorem Creation.assign_apply (object : α) (c : Creation α) :
    Creation.assign object c = .ok (.ok (), ⟨some object, c.allocations⟩) := rfl

end

end LibHuffman
