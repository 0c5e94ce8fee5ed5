import Mathlib.Data.List.Nodup
import Mathlib.Data.List.GetD
import UnixNetwork.Bytes.Basic

/-!
# Base64, as RFC 4648 prescribes it

The encoding of section 4 of the RFC, in its own terms: three bytes are one
24-bit number, the number is four groups of six bits, and each group names a
character of the alphabet.  A last group of one or two bytes is filled up with
zero bits, and the characters that would carry only filling are written `=`.

`encode_injective` is what the comparison of two encoders rests on.  `Canonical` describes the
encodings as strings, and `canonical_iff` says that these are all of them.
-/

namespace UnixNetwork
namespace Rfc4648

open Bytes

/-- The alphabet of the standard encoding. -/
def alphabet : List UInt8 :=
  ascii "ABCDEFGHIJKLMNOPQRSTUVWXYZabcdefghijklmnopqrstuvwxyz0123456789+/"

/-- The padding character `=`. -/
def pad : UInt8 := 61

/-- The character of a six-bit group. -/
def char (v : ℕ) : UInt8 := alphabet.getD v 0

/-- Group `k` of a 24-bit number, counted from the low end. -/
def sextet (v k : ℕ) : ℕ := v / 64 ^ k % 64

/-- The 24-bit number of three bytes. -/
def group (a b c : UInt8) : ℕ := a.toNat * 65536 + b.toNat * 256 + c.toNat

/-- The encoding. -/
def encode : List UInt8 → List UInt8
  | [] => []
  | [a] =>
    let v := group a 0 0
    [char (sextet v 3), char (sextet v 2), pad, pad]
  | [a, b] =>
    let v := group a b 0
    [char (sextet v 3), char (sextet v 2), char (sextet v 1), pad]
  | a :: b :: c :: rest =>
    let v := group a b c
    char (sextet v 3) :: char (sextet v 2) :: char (sextet v 1) :: char (sextet v 0) ::
      encode rest

/-! ## The alphabet -/

theorem length_alphabet : alphabet.length = 64 := by decide

theorem nodup_alphabet : alphabet.Nodup := by decide +kernel

theorem sextet_lt (v k : ℕ) : sextet v k < 64 := Nat.mod_lt _ (by decide)

/-- Different groups have different characters. -/
theorem char_injective {v w : ℕ} (hv : v < 64) (hw : w < 64) (h : char v = char w) : v = w := by
  have hv' : v < alphabet.length := by rw [length_alphabet]; exact hv
  have hw' : w < alphabet.length := by rw [length_alphabet]; exact hw
  rw [char, char, List.getD_eq_getElem _ _ hv', List.getD_eq_getElem _ _ hw'] at h
  exact (List.Nodup.getElem_inj_iff nodup_alphabet).mp h

theorem char_mem {v : ℕ} (hv : v < 64) : char v ∈ alphabet := by
  have hv' : v < alphabet.length := by rw [length_alphabet]; exact hv
  rw [char, List.getD_eq_getElem _ _ hv']
  exact List.getElem_mem hv'

/-- No group is written as padding. -/
theorem char_ne_pad {v : ℕ} (hv : v < 64) : char v ≠ pad := by
  intro h
  have hmem := char_mem hv
  rw [h] at hmem
  revert hmem
  decide

/-- No character of an encoding is a NUL. -/
theorem zero_notMem_encode (l : List UInt8) : (0 : UInt8) ∉ encode l := by
  have hchar : ∀ v k, (0 : UInt8) ≠ char (sextet v k) := by
    intro v k h
    have hmem := char_mem (sextet_lt v k)
    rw [← h] at hmem
    revert hmem
    decide
  have hpad : (0 : UInt8) ≠ pad := by decide
  induction l using encode.induct with
  | case1 => simp [encode]
  | case2 a => simp [encode, hchar, hpad]
  | case3 a b => simp [encode, hchar, hpad]
  | case4 a b c rest ih => simp [encode, hchar, ih]

/-- The encoding has four characters for each group of three bytes begun. -/
theorem length_encode (l : List UInt8) : (encode l).length = 4 * ((l.length + 2) / 3) := by
  induction l using encode.induct with
  | case1 => rfl
  | case2 a => simp [encode]
  | case3 a b => simp [encode]
  | case4 a b c rest ih =>
    simp only [encode, List.length_cons, ih]
    omega

/-! ## Injectivity -/

theorem eq_of_char_sextet {v w k : ℕ} (h : char (sextet v k) = char (sextet w k)) :
    sextet v k = sextet w k := char_injective (sextet_lt v k) (sextet_lt w k) h

/-- A 24-bit number is its four groups. -/
theorem eq_of_sextets {v w : ℕ} (hv : v < 2 ^ 24) (hw : w < 2 ^ 24)
    (h3 : sextet v 3 = sextet w 3) (h2 : sextet v 2 = sextet w 2) (h1 : sextet v 1 = sextet w 1)
    (h0 : sextet v 0 = sextet w 0) : v = w := by
  simp only [sextet] at h3 h2 h1 h0
  omega

theorem group_lt (a b c : UInt8) : group a b c < 2 ^ 24 := by
  have ha := a.toNat_lt
  have hb := b.toNat_lt
  have hc := c.toNat_lt
  simp only [group]
  omega

/-- Three bytes are read back from their number. -/
theorem group_injective {a b c a' b' c' : UInt8} (h : group a b c = group a' b' c') :
    a = a' ∧ b = b' ∧ c = c' := by
  have ha := a.toNat_lt
  have hb := b.toNat_lt
  have hc := c.toNat_lt
  have ha' := a'.toNat_lt
  have hb' := b'.toNat_lt
  have hc' := c'.toNat_lt
  simp only [group] at h
  refine ⟨UInt8.toNat_inj.mp ?_, UInt8.toNat_inj.mp ?_, UInt8.toNat_inj.mp ?_⟩ <;> omega

/-- The filling of a short last group is zero on both sides. -/
theorem sextet_group_zero (a b : UInt8) : sextet (group a b 0) 0 = 0 := by
  simp only [sextet, group, UInt8.toNat_zero]
  omega

theorem sextet_group_zero_zero (a : UInt8) : sextet (group a 0 0) 1 = 0 := by
  simp only [sextet, group, UInt8.toNat_zero]
  omega

/-- **Different byte strings have different encodings.**  Induction on the
groups of the first one; the place of the padding tells where the other ends. -/
theorem encode_injective : Function.Injective encode := by
  intro x
  induction x using encode.induct with
  | case1 =>
    intro y h
    match y, h with
    | [], _ => rfl
    | [_], h => cases h
    | [_, _], h => cases h
    | _ :: _ :: _ :: _, h => cases h
  | case2 a =>
    intro y h
    match y, h with
    | [], h => cases h
    | [a'], h =>
      simp only [encode, List.cons.injEq] at h
      have hg := eq_of_sextets (group_lt a 0 0) (group_lt a' 0 0) (eq_of_char_sextet h.1)
        (eq_of_char_sextet h.2.1)
        (by rw [sextet_group_zero_zero, sextet_group_zero_zero])
        (by rw [sextet_group_zero, sextet_group_zero])
      rw [(group_injective hg).1]
    | [a', b'], h =>
      simp only [encode, List.cons.injEq] at h
      exact absurd h.2.2.1.symm (char_ne_pad (sextet_lt _ _))
    | a' :: b' :: c' :: rest', h =>
      simp only [encode, List.cons.injEq] at h
      exact absurd h.2.2.1.symm (char_ne_pad (sextet_lt _ _))
  | case3 a b =>
    intro y h
    match y, h with
    | [], h => cases h
    | [a'], h =>
      simp only [encode, List.cons.injEq] at h
      exact absurd h.2.2.1 (char_ne_pad (sextet_lt _ _))
    | [a', b'], h =>
      simp only [encode, List.cons.injEq] at h
      have hg := eq_of_sextets (group_lt a b 0) (group_lt a' b' 0) (eq_of_char_sextet h.1)
        (eq_of_char_sextet h.2.1) (eq_of_char_sextet h.2.2.1)
        (by rw [sextet_group_zero, sextet_group_zero])
      obtain ⟨rfl, rfl, -⟩ := group_injective hg
      rfl
    | a' :: b' :: c' :: rest', h =>
      simp only [encode, List.cons.injEq] at h
      exact absurd h.2.2.2.1.symm (char_ne_pad (sextet_lt _ _))
  | case4 a b c rest ih =>
    intro y h
    match y, h with
    | [], h => cases h
    | [a'], h =>
      simp only [encode, List.cons.injEq] at h
      exact absurd h.2.2.1 (char_ne_pad (sextet_lt _ _))
    | [a', b'], h =>
      simp only [encode, List.cons.injEq] at h
      exact absurd h.2.2.2.1 (char_ne_pad (sextet_lt _ _))
    | a' :: b' :: c' :: rest', h =>
      simp only [encode, List.cons.injEq] at h
      have hg := eq_of_sextets (group_lt a b c) (group_lt a' b' c') (eq_of_char_sextet h.1)
        (eq_of_char_sextet h.2.1) (eq_of_char_sextet h.2.2.1) (eq_of_char_sextet h.2.2.2.1)
      obtain ⟨rfl, rfl, rfl⟩ := group_injective hg
      rw [ih h.2.2.2.2]

/-! ## Which strings are encodings -/

/-- The six bits a character stands for. -/
def value (c : UInt8) : ℕ := alphabet.idxOf c

theorem value_lt {c : UInt8} (h : c ∈ alphabet) : value c < 64 := by
  have := List.idxOf_lt_length_of_mem h
  rwa [length_alphabet] at this

theorem char_value {c : UInt8} (h : c ∈ alphabet) : char (value c) = c := by
  have hlt := List.idxOf_lt_length_of_mem h
  rw [char, value, List.getD_eq_getElem _ _ hlt, List.getElem_idxOf]

theorem value_char {v : ℕ} (h : v < 64) : value (char v) = v :=
  char_injective (value_lt (char_mem h)) h (char_value (char_mem h))

/-- Characters of the alphabet, whole groups of four with the padding that takes the place of
the last one or two, and no bit set in the last character that no byte has a use for. -/
structure Canonical (s : List UInt8) : Prop where
  length_mod : s.length % 4 = 0
  padded : ∃ w k, s = w ++ List.replicate k pad ∧ k ≤ 2 ∧ (∀ c ∈ w, c ∈ alphabet) ∧
    value (w.getLastD 0) % 4 ^ k = 0

/-- Four groups of six bits are three bytes. -/
theorem exists_group {v₃ v₂ v₁ v₀ : ℕ} (h₃ : v₃ < 64) (h₂ : v₂ < 64) (h₁ : v₁ < 64)
    (h₀ : v₀ < 64) :
    ∃ a b c : UInt8, b.toNat = v₂ % 16 * 16 + v₁ / 4 ∧ c.toNat = v₁ % 4 * 64 + v₀ ∧
      sextet (group a b c) 3 = v₃ ∧ sextet (group a b c) 2 = v₂ ∧
      sextet (group a b c) 1 = v₁ ∧ sextet (group a b c) 0 = v₀ := by
  have hbyte : ∀ n < 256, (UInt8.ofNat n).toNat = n := by
    intro n hn
    rw [UInt8.toNat_ofNat', Nat.mod_eq_of_lt hn]
  have ha := hbyte (v₃ * 4 + v₂ / 16) (by omega)
  have hb := hbyte (v₂ % 16 * 16 + v₁ / 4) (by omega)
  have hc := hbyte (v₁ % 4 * 64 + v₀) (by omega)
  refine ⟨UInt8.ofNat (v₃ * 4 + v₂ / 16), UInt8.ofNat (v₂ % 16 * 16 + v₁ / 4),
    UInt8.ofNat (v₁ % 4 * 64 + v₀), hb, hc, ?_⟩
  simp only [sextet, group, ha, hb, hc]
  refine ⟨?_, ?_, ?_, ?_⟩ <;> omega

theorem canonical_cons {c₃ c₂ c₁ c₀ : UInt8} {s : List UInt8} (h₃ : c₃ ∈ alphabet)
    (h₂ : c₂ ∈ alphabet) (h₁ : c₁ ∈ alphabet) (h₀ : c₀ ∈ alphabet) (h : Canonical s) :
    Canonical (c₃ :: c₂ :: c₁ :: c₀ :: s) := by
  obtain ⟨hlen, w, k, rfl, hk, hw, hlast⟩ := h
  refine ⟨?_, c₃ :: c₂ :: c₁ :: c₀ :: w, k, rfl, hk, ?_, ?_⟩
  · simp only [List.length_cons]
    omega
  · simp only [List.forall_mem_cons]
    exact ⟨h₃, h₂, h₁, h₀, hw⟩
  · cases w with
    | nil =>
      -- no group of the padding alone
      simp only [List.nil_append, List.length_replicate] at hlen
      obtain rfl : k = 0 := by omega
      exact Nat.mod_one _
    | cons c w => exact hlast

theorem canonical_encode (b : List UInt8) : Canonical (encode b) := by
  have hlen : ∀ b, (encode b).length % 4 = 0 := by
    intro b
    rw [length_encode, Nat.mul_mod_right]
  have hmem : ∀ v k, char (sextet v k) ∈ alphabet := fun v k => char_mem (sextet_lt v k)
  induction b using encode.induct with
  | case1 => exact ⟨hlen _, [], 0, rfl, by decide, by simp, Nat.mod_one _⟩
  | case2 a =>
    refine ⟨hlen _, [char (sextet (group a 0 0) 3), char (sextet (group a 0 0) 2)], 2, rfl, le_rfl,
      ?_, ?_⟩
    · simp [hmem]
    · show value (char (sextet (group a 0 0) 2)) % 4 ^ 2 = 0
      rw [value_char (sextet_lt _ _)]
      simp only [sextet, group, UInt8.toNat_zero]
      omega
  | case3 a b =>
    refine ⟨hlen _, [char (sextet (group a b 0) 3), char (sextet (group a b 0) 2),
      char (sextet (group a b 0) 1)], 1, rfl, by decide, ?_, ?_⟩
    · simp [hmem]
    · show value (char (sextet (group a b 0) 1)) % 4 ^ 1 = 0
      rw [value_char (sextet_lt _ _)]
      simp only [sextet, group, UInt8.toNat_zero]
      omega
  | case4 a b c rest ih => exact canonical_cons (hmem _ _) (hmem _ _) (hmem _ _) (hmem _ _) ih

/-- A string of characters with its padding is an encoding.  Induction on the groups; a last
group of two or three characters has the zero bits that its padding asks for. -/
theorem exists_encode_of_padded {w : List UInt8} {k : ℕ} (hk : k ≤ 2) (hw : ∀ c ∈ w, c ∈ alphabet)
    (hlen : (w.length + k) % 4 = 0) (hlast : value (w.getLastD 0) % 4 ^ k = 0) :
    ∃ b, encode b = w ++ List.replicate k pad := by
  match w with
  | [] =>
    obtain rfl : k = 0 := by simp only [List.length_nil] at hlen; omega
    exact ⟨[], rfl⟩
  | [c₃] =>
    simp only [List.length_cons, List.length_nil] at hlen
    omega
  | [c₃, c₂] =>
    obtain rfl : k = 2 := by simp only [List.length_cons, List.length_nil] at hlen; omega
    simp only [List.forall_mem_cons] at hw
    obtain ⟨h₃, h₂, -⟩ := hw
    have hlast' : value c₂ % 16 = 0 := hlast
    obtain ⟨a, b, c, hb, hc, hs₃, hs₂, -⟩ :=
      exists_group (value_lt h₃) (value_lt h₂) (by decide : 0 < 64) (by decide : 0 < 64)
    obtain rfl : c = 0 := UInt8.toNat_inj.mp hc
    obtain rfl : b = 0 := UInt8.toNat_inj.mp (hb.trans (by rw [UInt8.toNat_zero]; omega))
    refine ⟨[a], ?_⟩
    simp only [encode, hs₃, hs₂, char_value h₃, char_value h₂]
    rfl
  | [c₃, c₂, c₁] =>
    obtain rfl : k = 1 := by simp only [List.length_cons, List.length_nil] at hlen; omega
    simp only [List.forall_mem_cons] at hw
    obtain ⟨h₃, h₂, h₁, -⟩ := hw
    have hlast' : value c₁ % 4 = 0 := hlast
    obtain ⟨a, b, c, -, hc, hs₃, hs₂, hs₁, -⟩ :=
      exists_group (value_lt h₃) (value_lt h₂) (value_lt h₁) (by decide : 0 < 64)
    obtain rfl : c = 0 := UInt8.toNat_inj.mp (hc.trans (by rw [UInt8.toNat_zero]; omega))
    refine ⟨[a, b], ?_⟩
    simp only [encode, hs₃, hs₂, hs₁, char_value h₃, char_value h₂, char_value h₁]
    rfl
  | c₃ :: c₂ :: c₁ :: c₀ :: w =>
    simp only [List.forall_mem_cons] at hw
    obtain ⟨h₃, h₂, h₁, h₀, hw⟩ := hw
    simp only [List.length_cons] at hlen
    obtain ⟨a, b, c, -, -, hs₃, hs₂, hs₁, hs₀⟩ :=
      exists_group (value_lt h₃) (value_lt h₂) (value_lt h₁) (value_lt h₀)
    have hrest : value (w.getLastD 0) % 4 ^ k = 0 := by
      cases w with
      | nil =>
        simp only [List.length_nil] at hlen
        obtain rfl : k = 0 := by omega
        exact Nat.mod_one _
      | cons d w => exact hlast
    obtain ⟨rest, hrest⟩ := exists_encode_of_padded hk hw (by omega) hrest
    refine ⟨a :: b :: c :: rest, ?_⟩
    simp only [encode, hs₃, hs₂, hs₁, hs₀, char_value h₃, char_value h₂, char_value h₁,
      char_value h₀, hrest]
    rfl

/-- **The canonical strings are the encodings.** -/
theorem canonical_iff (s : List UInt8) : Canonical s ↔ ∃ b, encode b = s := by
  constructor
  · rintro ⟨hlen, w, k, rfl, hk, hw, hlast⟩
    rw [List.length_append, List.length_replicate] at hlen
    exact exists_encode_of_padded hk hw hlen hlast
  · rintro ⟨b, rfl⟩
    exact canonical_encode b

end Rfc4648
end UnixNetwork
