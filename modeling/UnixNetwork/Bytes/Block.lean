import Mathlib.Data.Vector.Basic
import UnixNetwork.Bytes.Basic

/-!
# Blocks of memory with checked access

A block is an array of a fixed number of cells.  An access that leaves the block
is not defined in C, and here it gives `none`; an access that stays inside gives
the cells read, or the block written.  So "every access lies inside the block"
is the statement that a computation over blocks returns `some`.

A block carries its length in its type: `store` cannot change it, and no proof
about a program has to say that a buffer still has the size it was declared
with.

* `overwrite l i xs` is `l` with `xs` written over it from position `i` on.
* `Block.load`, `Block.store` are the checked `memcpy` out of and into a block;
  `store_eq_some`, `load_eq_some` are their defining cases.
* `Block.zero` is what `memset(_, 0, _)` leaves.
-/

namespace UnixNetwork
namespace Bytes

variable {α : Type*}

/-! ## Overwriting -/

/-- `l` with `xs` written over it from position `i` on. -/
def overwrite (l : List α) (i : ℕ) (xs : List α) : List α :=
  l.take i ++ xs ++ l.drop (i + xs.length)

theorem length_overwrite {l : List α} {i : ℕ} {xs : List α} (h : i + xs.length ≤ l.length) :
    (overwrite l i xs).length = l.length := by
  simp only [overwrite, List.length_append, List.length_take, List.length_drop]
  omega

/-- What was written is what is read back at the place it was written to. -/
theorem take_drop_overwrite (l : List α) (i : ℕ) (xs : List α) (h : i + xs.length ≤ l.length) :
    ((overwrite l i xs).drop i).take xs.length = xs := by
  have hlen : (l.take i).length = i := by
    rw [List.length_take]
    omega
  rw [overwrite, List.append_assoc, List.drop_append_of_le_length (by omega),
    List.drop_of_length_le (by omega), List.nil_append, List.take_left]

/-- Nothing before the place written to changes. -/
theorem take_overwrite_of_le {l : List α} {i k : ℕ} {xs : List α} (hk : k ≤ i)
    (h : i ≤ l.length) : (overwrite l i xs).take k = l.take k := by
  have hlen : (l.take i).length = i := by
    rw [List.length_take]
    omega
  rw [overwrite, List.append_assoc, List.take_append_of_le_length (by omega), List.take_take,
    Nat.min_eq_left hk]

theorem overwrite_zero (l xs : List α) : overwrite l 0 xs = xs ++ l.drop xs.length := by
  simp [overwrite]

/-- Writing over the front of a string that is all one value leaves the rest. -/
theorem overwrite_replicate {n : ℕ} (a : α) (xs : List α) :
    overwrite (List.replicate n a) 0 xs = xs ++ List.replicate (n - xs.length) a := by
  rw [overwrite_zero, List.drop_replicate]

/-! ## Blocks -/

/-- A block of `n` cells. -/
abbrev Block (α : Type*) (n : ℕ) := List.Vector α n

namespace Block

variable {n : ℕ}

/-- The `k` cells from `i` on, if they lie in the block. -/
def load (b : Block α n) (i k : ℕ) : Option (List α) :=
  if i + k ≤ n then some ((b.toList.drop i).take k) else none

/-- The block with `xs` written from `i` on, if that stays in the block. -/
def store (b : Block α n) (i : ℕ) (xs : List α) : Option (Block α n) :=
  if h : i + xs.length ≤ n then
    some ⟨overwrite b.toList i xs,
      (length_overwrite (by rw [b.toList_length]; exact h)).trans b.toList_length⟩
  else none

/-- The block with `xs` written over its front. -/
def storeFront (b : Block α n) (xs : List α) (h : xs.length ≤ n) : Block α n :=
  ⟨overwrite b.toList 0 xs,
    (length_overwrite (by rw [b.toList_length]; omega)).trans b.toList_length⟩

/-- The block that holds exactly the cells of a list. -/
def ofList (l : List α) : Block α l.length := ⟨l, rfl⟩

@[simp] theorem toList_ofList (l : List α) : (ofList l).toList = l := rfl

/-- The block of zero bytes. -/
def zero (n : ℕ) : Block UInt8 n := List.Vector.replicate n 0

@[simp] theorem toList_zero (n : ℕ) : (zero n).toList = List.replicate n 0 := rfl

theorem load_eq_some {b : Block α n} {i k : ℕ} (h : i + k ≤ n) :
    b.load i k = some ((b.toList.drop i).take k) := if_pos h

theorem store_eq_some (b : Block α n) (i : ℕ) (xs : List α) (h : i + xs.length ≤ n) :
    ∃ b', b.store i xs = some b' ∧ b'.toList = overwrite b.toList i xs := by
  rw [store, dif_pos h]
  exact ⟨_, rfl, rfl⟩

theorem take_storeFront (b : Block α n) (xs : List α) (h : xs.length ≤ n) :
    (b.storeFront xs h).toList.take xs.length = xs := by
  show (overwrite b.toList 0 xs).take xs.length = xs
  rw [overwrite_zero, List.take_left]

/-- A store that went through stayed inside the block and wrote what it was given. -/
theorem of_store_eq_some {b b' : Block α n} {i : ℕ} {xs : List α}
    (h : b.store i xs = some b') :
    i + xs.length ≤ n ∧ b'.toList = overwrite b.toList i xs := by
  unfold store at h
  split at h
  · rename_i hle
    rw [← Option.some.inj h]
    exact ⟨hle, rfl⟩
  · cases h

end Block

end Bytes
end UnixNetwork
