import UnixNetwork.Bytes.Split

/-!
# Byte strings

The programs of this development all work on byte strings, and this file holds
what they share: literals, the C view of a string as "the bytes before the first
NUL", padding with zero bytes, and the two byte orders.

* `ascii` reads a literal as its bytes; `forall_byte` checks a property on all bytes.
* `isalnum` is the one of the C library; `toInt` is a number as an `int`.
* `cstr` cuts a byte string at its first NUL; `cstr_append_zero` says that a
  NUL-free string followed by a NUL is read back whole.
* `padTo` extends a string with zero bytes up to a length.
* `beBytes`/`beNat` and `leBytes`/`leNat` are the fixed-width big-endian and
  little-endian encodings of a natural number, with `beNat_beBytes` and
  `leNat_leBytes` for the round trips.
-/

namespace UnixNetwork
namespace Bytes

/-- The bytes of a literal, one for each character. -/
def ascii (s : String) : List UInt8 := s.toList.map fun c => UInt8.ofNat c.toNat

/-- A property of bytes, checked on all of them. -/
theorem forall_byte {P : UInt8 → Prop} (h : ∀ n : Fin 256, P (UInt8.ofNat n)) (a : UInt8) :
    P a := by
  have ha := h ⟨a.toNat, a.toNat_lt⟩
  rwa [UInt8.ofNat_toNat] at ha

/-- `isalnum`, in the C locale. -/
def isalnum (c : UInt8) : Bool :=
  decide (48 ≤ c ∧ c ≤ 57 ∨ 65 ≤ c ∧ c ≤ 90 ∨ 97 ≤ c ∧ c ≤ 122)

/-- A number as an `int`. -/
def toInt (n : ℤ) : ℤ := Int.bmod n (2 ^ 32)

theorem toInt_of_lt {n : ℕ} (h : n < 2 ^ 31) : toInt n = n := by
  unfold toInt
  rw [Int.bmod_eq_of_le] <;> omega

/-! ## C strings -/

/-- A C string: the bytes before the first NUL. -/
def cstr (l : List UInt8) : List UInt8 := l.takeWhile (· ≠ 0)

theorem cstr_eq_self {l : List UInt8} (h : (0 : UInt8) ∉ l) : cstr l = l :=
  Split.takeWhile_of_notMem h

theorem zero_notMem_cstr (l : List UInt8) : (0 : UInt8) ∉ cstr l := by
  intro h
  have := List.mem_takeWhile_imp h
  simp at this

theorem cstr_isPrefix (l : List UInt8) : cstr l <+: l := List.takeWhile_prefix _

theorem cstr_length_le (l : List UInt8) : (cstr l).length ≤ l.length := (cstr_isPrefix l).length_le

/-- Cutting at the first NUL a string whose first part has none. -/
theorem cstr_append {l : List UInt8} (h : (0 : UInt8) ∉ l) (t : List UInt8) :
    cstr (l ++ t) = l ++ cstr t :=
  List.takeWhile_append_of_pos (List.takeWhile_eq_self_iff.mp (cstr_eq_self h))

/-- A NUL-free string that a NUL follows is read back whole. -/
theorem cstr_append_zero {l : List UInt8} (h : (0 : UInt8) ∉ l) (t : List UInt8) :
    cstr (l ++ 0 :: t) = l :=
  (Split.takeWhile_append_cons 0 l t).trans (cstr_eq_self h)

/-- A string and the NUL that ends it. -/
theorem exists_eq_cstr_append {l : List UInt8} (h : (0 : UInt8) ∈ l) : ∃ t, l = cstr l ++ 0 :: t := by
  obtain ⟨a, t, hl, ha⟩ := List.eq_append_cons_of_mem h
  exact ⟨t, hl.trans (congrArg (· ++ 0 :: t) (hl ▸ cstr_append_zero ha t).symm)⟩

/-! ## Padding -/

/-- A string extended with zero bytes up to length `n`. -/
def padTo (n : ℕ) (l : List UInt8) : List UInt8 := l ++ List.replicate (n - l.length) 0

theorem length_padTo {n : ℕ} {l : List UInt8} (h : l.length ≤ n) : (padTo n l).length = n := by
  rw [padTo, List.length_append, List.length_replicate]
  omega

/-- The padding is not part of the C string. -/
theorem cstr_padTo_eq (n : ℕ) (l : List UInt8) : cstr (padTo n l) = cstr l := by
  rw [padTo]
  generalize n - l.length = k
  induction l with
  | nil => cases k <;> rfl
  | cons c l ih =>
    rw [List.cons_append, cstr, cstr, List.takeWhile_cons, List.takeWhile_cons]
    split
    · exact congrArg (c :: ·) ih
    · rfl

/-- A NUL-free string is read back whole. -/
theorem cstr_padTo (n : ℕ) {l : List UInt8} (h : (0 : UInt8) ∉ l) : cstr (padTo n l) = l :=
  (cstr_padTo_eq n l).trans (cstr_eq_self h)

/-- When a zeroed buffer is terminated after a chunk was received into it. -/
theorem zero_mem_padTo_take (n : ℕ) (l : List UInt8) :
    (0 : UInt8) ∈ padTo n (l.take n) ↔ l.length < n ∨ (0 : UInt8) ∈ l.take n := by
  have hpad : n - min n l.length ≠ 0 ↔ l.length < n := by omega
  rw [padTo, List.mem_append, List.mem_replicate, List.length_take, hpad, and_iff_left rfl, or_comm]

/-! ## Byte order -/

/-- The low `8 * k` bits of `n`, most significant byte first. -/
def beBytes : ℕ → ℕ → List UInt8
  | 0, _ => []
  | k + 1, n => beBytes k (n / 256) ++ [UInt8.ofNat n]

/-- The number a big-endian byte string denotes. -/
def beNat (l : List UInt8) : ℕ := l.foldl (fun a b => a * 256 + b.toNat) 0

@[simp] theorem length_beBytes (k n : ℕ) : (beBytes k n).length = k := by
  induction k generalizing n with
  | zero => rfl
  | succ k ih => simp [beBytes, ih]

/-- **The big-endian encoding is read back**, up to the bits that fit. -/
theorem beNat_beBytes (k n : ℕ) : beNat (beBytes k n) = n % 256 ^ k := by
  induction k generalizing n with
  | zero => simp [beBytes, beNat, Nat.mod_one]
  | succ k ih =>
    have h := ih (n / 256)
    rw [beNat] at h
    rw [beBytes, beNat, List.foldl_append, h]
    have hbyte : (UInt8.ofNat n).toNat = n % 256 := by simp
    have hpow : 256 ^ (k + 1) = 256 * 256 ^ k := Nat.pow_succ'
    simp only [List.foldl_cons, List.foldl_nil, hbyte]
    rw [hpow, Nat.mod_mul]
    omega

/-- The number a little-endian byte string denotes: the host order of the
programs' machines. -/
def leNat (l : List UInt8) : ℕ := l.foldr (fun b a => b.toNat + 256 * a) 0

/-- The low `8 * k` bits of `n`, least significant byte first. -/
def leBytes : ℕ → ℕ → List UInt8
  | 0, _ => []
  | k + 1, n => UInt8.ofNat n :: leBytes k (n / 256)

@[simp] theorem length_leBytes (k n : ℕ) : (leBytes k n).length = k := by
  induction k generalizing n with
  | zero => rfl
  | succ k ih => simp [leBytes, ih]

/-- **The little-endian encoding is read back**, up to the bits that fit. -/
theorem leNat_leBytes (k n : ℕ) : leNat (leBytes k n) = n % 256 ^ k := by
  induction k generalizing n with
  | zero => simp [leBytes, leNat, Nat.mod_one]
  | succ k ih =>
    have h := ih (n / 256)
    rw [leNat] at h
    rw [leBytes, leNat, List.foldr_cons, h]
    have hbyte : (UInt8.ofNat n).toNat = n % 256 := by simp
    rw [hbyte, Nat.pow_succ', Nat.mod_mul]

end Bytes
end UnixNetwork
