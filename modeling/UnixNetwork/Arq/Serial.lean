import Mathlib.Algebra.Order.Ring.Int
import Mathlib.Data.Nat.Cast.Order.Ring

/-!
# Serial numbers

A protocol that numbers its messages forever carries the numbers in a field of
`w` bits, so what travels is `BitVec.ofNat w i` for an index `i` that grows without
bound.  Two serial numbers are compared by the sign of their difference, read as a
`w`-bit signed number.  That is an order only locally: it agrees with the order of
the indices as long as these are *near* each other, less than half of the number
space apart.

`diff_ofNat` is the whole content: under `Near`, the signed difference of two serial
numbers is the difference of their indices.  What the comparisons of a protocol mean
on indices (`diff_neg_iff`, `diff_pos_iff`, ...) follows, and so does that near
indices with one serial number are equal.

The counters of a protocol may have `w` bits as well.  A counter that has gone up and
down is `BitVec.ofNat w n` for the number `n` that it counts.
-/

namespace UnixNetwork
namespace Serial

variable {w : ℕ}

/-- How far one serial number is ahead of another, as a signed number. -/
def diff (later earlier : BitVec w) : ℤ := (later - earlier).toInt

/-- Less than half of the number space apart. -/
def Near (w i j : ℕ) : Prop := 2 * i < 2 * j + 2 ^ w ∧ 2 * j < 2 * i + 2 ^ w

theorem Near.symm {i j : ℕ} (h : Near w i j) : Near w j i := ⟨h.2, h.1⟩

/-- All indices of a stretch shorter than half of the number space are near. -/
theorem near_of_mem {lo hi i j : ℕ} (hlen : 2 * hi ≤ 2 * lo + 2 ^ w) (hi₁ : lo ≤ i)
    (hi₂ : i < hi) (hj₁ : lo ≤ j) (hj₂ : j < hi) : Near w i j := by
  constructor <;> omega

/-- **The signed difference of two serial numbers is that of their indices**, as long as
the indices are near. -/
theorem diff_ofNat {i j : ℕ} (h : Near w i j) :
    diff (BitVec.ofNat w i) (BitVec.ofNat w j) = (i : ℤ) - j := by
  obtain ⟨hlt, hgt⟩ := h
  rw [diff, BitVec.toInt_sub, BitVec.toInt_ofNat', BitVec.toInt_ofNat', Int.bmod_sub_bmod,
    Int.sub_bmod_bmod]
  generalize 2 ^ w = n at hlt hgt ⊢
  exact Int.bmod_eq_of_le_mul_two (by omega) (by omega)

theorem diff_neg_iff {i j : ℕ} (h : Near w i j) :
    diff (BitVec.ofNat w i) (BitVec.ofNat w j) < 0 ↔ i < j := by
  rw [diff_ofNat h]
  omega

theorem diff_pos_iff {i j : ℕ} (h : Near w i j) :
    0 < diff (BitVec.ofNat w i) (BitVec.ofNat w j) ↔ j < i := by
  rw [diff_ofNat h]
  omega

theorem diff_nonneg_iff {i j : ℕ} (h : Near w i j) :
    0 ≤ diff (BitVec.ofNat w i) (BitVec.ofNat w j) ↔ j ≤ i := by
  rw [diff_ofNat h]
  omega

/-- Indices less than the whole number space apart are the same when their serial numbers
are. -/
theorem eq_of_ofNat_eq_of_lt {i j : ℕ} (hij : i < j + 2 ^ w) (hji : j < i + 2 ^ w)
    (heq : BitVec.ofNat w i = BitVec.ofNat w j) : i = j := by
  have hmod : i % 2 ^ w = j % 2 ^ w := by
    rw [← BitVec.toNat_ofNat, heq, BitVec.toNat_ofNat]
  have hi := Nat.div_add_mod i (2 ^ w)
  have hj := Nat.div_add_mod j (2 ^ w)
  -- as many times round the number space
  rcases Nat.lt_trichotomy (i / 2 ^ w) (j / 2 ^ w) with hlt | hround | hlt
  · have hmul := Nat.mul_le_mul_left (2 ^ w) hlt
    rw [Nat.mul_succ] at hmul
    omega
  · rw [hround] at hi
    omega
  · have hmul := Nat.mul_le_mul_left (2 ^ w) hlt
    rw [Nat.mul_succ] at hmul
    omega

/-- Near indices with one serial number are the same. -/
theorem eq_of_ofNat_eq {i j : ℕ} (h : Near w i j)
    (heq : BitVec.ofNat w i = BitVec.ofNat w j) : i = j := by
  obtain ⟨hlt, hgt⟩ := h
  exact eq_of_ofNat_eq_of_lt (by omega) (by omega) heq

/-- The next serial number is that of the next index. -/
theorem ofNat_succ (i : ℕ) : BitVec.ofNat w i + 1 = BitVec.ofNat w (i + 1) := by
  rw [BitVec.ofNat_add]
  rfl

theorem toInt_nonneg_iff_toNat {x : BitVec w} : 0 ≤ x.toInt ↔ 2 * x.toNat < 2 ^ w := by
  have hlt := x.isLt
  rw [BitVec.toInt_eq_toNat_cond]
  split <;> omega

/-- The index of a serial number that is not behind another's, by the signed
difference. -/
theorem exists_index_of_nonneg {base : ℕ} {x : BitVec w} (h : 0 ≤ diff x (BitVec.ofNat w base)) :
    ∃ i, base ≤ i ∧ 2 * i < 2 * base + 2 ^ w ∧ x = BitVec.ofNat w i := by
  refine ⟨base + (x - BitVec.ofNat w base).toNat, Nat.le_add_right _ _, ?_, ?_⟩
  · have hlt := toInt_nonneg_iff_toNat.mp h
    omega
  · rw [BitVec.ofNat_add, BitVec.ofNat_toNat, BitVec.setWidth_eq, BitVec.add_comm,
      BitVec.sub_add_cancel]

/-- A number moved on is ahead by so much more, as long as that is less than half of the number
space, -/
theorem diff_add_left {c x : BitVec w} {d : ℕ} (hge : -(2 ^ w : ℤ) ≤ 2 * (diff c x + d))
    (hlt : 2 * (diff c x + d) < 2 ^ w) : diff (c + BitVec.ofNat w d) x = diff c x + d := by
  have hmove : c + BitVec.ofNat w d - x = c - x + BitVec.ofNat w d := by
    rw [BitVec.sub_eq_add_neg, BitVec.sub_eq_add_neg, BitVec.add_assoc, BitVec.add_assoc,
      BitVec.add_comm (BitVec.ofNat w d)]
  unfold diff at *
  rw [hmove, BitVec.toInt_add, BitVec.toInt_ofNat', Int.add_bmod_bmod]
  exact Int.bmod_eq_of_le_mul_two (by push_cast; omega) (by push_cast; omega)

/-- and others are ahead of it by so much less. -/
theorem diff_add_right {c x : BitVec w} {d : ℕ} (hge : -(2 ^ w : ℤ) ≤ 2 * (diff x c - d))
    (hlt : 2 * (diff x c - d) < 2 ^ w) : diff x (c + BitVec.ofNat w d) = diff x c - d := by
  have hmove : x - (c + BitVec.ofNat w d) = x - c - BitVec.ofNat w d := by
    rw [BitVec.sub_eq_add_neg, BitVec.neg_add, BitVec.sub_eq_add_neg, BitVec.sub_eq_add_neg,
      BitVec.sub_eq_add_neg, BitVec.add_assoc]
  unfold diff at *
  rw [hmove, BitVec.toInt_sub, BitVec.toInt_ofNat', Int.sub_bmod_bmod]
  exact Int.bmod_eq_of_le_mul_two (by push_cast; omega) (by push_cast; omega)

/-- The difference the other way, unless it is half of the number space. -/
theorem diff_comm {x y : BitVec w} (h : -(2 ^ w : ℤ) < 2 * diff x y) : diff y x = -diff x y := by
  have hneg : y - x = -(x - y) := by
    rw [BitVec.neg_sub, BitVec.add_comm, BitVec.sub_eq_add_neg]
  have hlt : 2 * (x - y).toInt < 2 ^ w := BitVec.two_mul_toInt_lt
  unfold diff at *
  rw [hneg, BitVec.toInt_neg]
  exact Int.bmod_eq_of_le_mul_two (by push_cast; omega) (by push_cast; omega)

/-! ## Counters -/

/-- A counter that goes down by some of what it has counted, also when it has run over. -/
theorem ofNat_sub_ofNat {m n : ℕ} (h : n ≤ m) :
    BitVec.ofNat w m - BitVec.ofNat w n = BitVec.ofNat w (m - n) := by
  obtain ⟨k, rfl⟩ := Nat.exists_eq_add_of_le' h
  rw [BitVec.ofNat_add, BitVec.add_sub_cancel, Nat.add_sub_cancel]

/-- A loop counts up one by one, -/
theorem add_one_add (x : BitVec w) (n : ℕ) :
    x + 1 + BitVec.ofNat w n = x + BitVec.ofNat w (n + 1) := by
  rw [BitVec.add_assoc, BitVec.add_comm 1, ofNat_succ]

/-- or down. -/
theorem sub_one_sub (x : BitVec w) (n : ℕ) :
    x - 1 - BitVec.ofNat w n = x - BitVec.ofNat w (n + 1) := by
  rw [BitVec.sub_sub, BitVec.add_comm, ofNat_succ]

/-- A counter that has not run over counts. -/
theorem toNat_ofNat_of_lt {n : ℕ} (h : n < 2 ^ w) : (BitVec.ofNat w n).toNat = n := by
  rw [BitVec.toNat_ofNat, Nat.mod_eq_of_lt h]

end Serial
end UnixNetwork
