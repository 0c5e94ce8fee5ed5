import Mathlib.Data.List.Basic
import UnixNetwork.Bytes.Basic

/-!
# How a client may spell a link

A link is a byte string; what a client sends for it is a spelling of it, in which
bytes that RFC 3986 does not allow in a URL may be replaced by `%` and two
hexadecimal digits.  A client need not do so, and it may not do it to the other
bytes, the plus sign among them.
-/

namespace UnixNetwork
namespace Rfc3986

open Bytes

/-- The unreserved characters: letters, digits, and four signs. -/
def unreserved (c : UInt8) : Bool :=
  decide (48 ≤ c ∧ c ≤ 57 ∨ 65 ≤ c ∧ c ≤ 90 ∨ 97 ≤ c ∧ c ≤ 122 ∨ c ∈ ascii "-._~")

/-- The reserved characters, which delimit the parts of a URL. -/
def reserved (c : UInt8) : Bool := decide (c ∈ ascii ":/?#[]@!$&'()*+,;=")

/-- The characters that may stand for themselves. -/
def allowed (c : UInt8) : Bool := unreserved c || reserved c

/-- A hexadecimal digit, with its letters in one of the two cases. -/
def hexDigit (upper : Bool) (n : ℕ) : UInt8 :=
  if n < 10 then UInt8.ofNat (48 + n)
  else if upper then UInt8.ofNat (55 + n) else UInt8.ofNat (87 + n)

/-- One byte of a link, as it is spelled. -/
inductive Spelled where
  | verbatim (c : UInt8)
  | escaped (c : UInt8) (u v : Bool) (not_allowed : allowed c = false)
  deriving DecidableEq

namespace Spelled

/-- The byte meant. -/
def byte : Spelled → UInt8
  | .verbatim c => c
  | .escaped c _ _ _ => c

/-- The bytes sent. -/
def text : Spelled → List UInt8
  | .verbatim c => [c]
  | .escaped c u v _ => [37, hexDigit u (c.toNat / 16), hexDigit v (c.toNat % 16)]

end Spelled

/-- A link as it is sent. -/
def spell (ts : List Spelled) : List UInt8 := ts.flatMap Spelled.text

@[simp] theorem spell_nil : spell [] = [] := rfl

@[simp] theorem spell_cons (x : Spelled) (ts : List Spelled) :
    spell (x :: ts) = x.text ++ spell ts := List.flatMap_cons

/-! ## What an escape looks like -/

/-- A digit is none of the bytes that mean something to a reader of requests. -/
theorem hexDigit_notMem (u : Bool) {n : ℕ} (hn : n < 16) :
    hexDigit u n ∉ ([0, 10, 32, 37, 43] : List UInt8) := by
  have h : ∀ (u : Bool) (n : Fin 16), hexDigit u n ∉ ([0, 10, 32, 37, 43] : List UInt8) := by
    decide
  exact h u ⟨n, hn⟩

/-- So an escape has exactly one such byte, its `%`. -/
theorem mem_text_escaped {c x : UInt8} {u v : Bool} {h : allowed c = false}
    (hx : x ∈ (Spelled.escaped c u v h).text) (hmem : x ∈ ([0, 10, 32, 37, 43] : List UInt8)) :
    x = 37 := by
  have hc := c.toNat_lt
  rcases List.mem_cons.mp hx with rfl | hx
  · rfl
  · rcases List.mem_cons.mp hx with rfl | hx
    · exact absurd hmem (hexDigit_notMem u (by omega))
    · rw [List.mem_singleton] at hx
      subst hx
      exact absurd hmem (hexDigit_notMem v (by omega))

/-- A NUL, a newline or a space in what is sent stands for itself. -/
theorem mem_spell {ts : List Spelled} {x : UInt8} (hx : x ∈ ([0, 10, 32] : List UInt8)) :
    x ∈ spell ts ↔ .verbatim x ∈ ts := by
  have hx' : x ∈ ([0, 10, 32, 37, 43] : List UInt8) :=
    (List.prefix_append [0, 10, 32] [37, 43]).subset hx
  induction ts with
  | nil => simp
  | cons t ts ih =>
    rw [spell_cons, List.mem_append, List.mem_cons]
    refine or_congr ?_ ih
    cases t with
    | verbatim c => simp [Spelled.text]
    | escaped c u v h =>
      constructor
      · intro hmem
        rw [mem_text_escaped hmem hx'] at hx
        exact absurd hx (by decide)
      · intro heq
        cases heq

/-- Up to the first space. -/
theorem takeWhile_spell (ts : List Spelled) :
    (spell ts).takeWhile (· ≠ 32) = spell (ts.takeWhile (· ≠ .verbatim 32)) := by
  induction ts with
  | nil => rfl
  | cons t ts ih =>
    rw [spell_cons, List.takeWhile_cons]
    cases t with
    | verbatim c =>
      by_cases hc : c = 32
      · simp [Spelled.text, hc]
      · simp only [Spelled.text, List.singleton_append, List.takeWhile_cons, ne_eq, hc,
          not_false_eq_true, decide_true, if_true, ih, Spelled.verbatim.injEq, spell_cons]
    | escaped c u v h =>
      have htext : ∀ x ∈ (Spelled.escaped c u v h).text, decide (x ≠ 32) = true := by
        intro x hx
        rw [decide_eq_true_eq]
        rintro rfl
        exact absurd (mem_text_escaped hx (by decide)) (by decide)
      rw [List.takeWhile_append_of_pos htext, ih, if_pos (by simp), spell_cons]

/-- How much longer the spelling is than the link: by two bytes for each `%` that
does not stand for itself. -/
theorem length_spell (ts : List Spelled) :
    (spell ts).length + 2 * ts.count (.verbatim 37) = ts.length + 2 * (spell ts).count 37 := by
  induction ts with
  | nil => rfl
  | cons t ts ih =>
    have htext : t.text.length + 2 * [t].count (.verbatim 37) = 1 + 2 * t.text.count 37 := by
      cases t with
      | verbatim c =>
        by_cases hc : c = 37
        · subst hc
          rfl
        · simp [Spelled.text, hc]
      | escaped c u v h =>
        have hc := c.toNat_lt
        have hu := hexDigit_notMem u (n := c.toNat / 16) (by omega)
        have hv := hexDigit_notMem v (n := c.toNat % 16) (by omega)
        simp only [List.mem_cons, not_or] at hu hv
        simp [Spelled.text, hu.2.2.2.1, hv.2.2.2.1]
    have hcount : (t :: ts).count (.verbatim 37) = [t].count (.verbatim 37) +
        ts.count (.verbatim 37) := by
      rw [← List.singleton_append, List.count_append]
    rw [spell_cons, List.length_append, List.count_append, hcount, List.length_cons]
    omega

/-! ## Reading a string with escapes -/

/-- The hexadecimal digits, in both cases. -/
def isHex (c : UInt8) : Bool := decide (48 ≤ c ∧ c ≤ 57 ∨ 65 ≤ c ∧ c ≤ 70 ∨ 97 ≤ c ∧ c ≤ 102)

/-- What a digit is worth. -/
def hexValue (c : UInt8) : ℕ :=
  if c ≤ 57 then c.toNat - 48 else if c ≤ 70 then c.toNat - 55 else c.toNat - 87

/-- What a scan from the left meets: an escape, a `%` too close to the end to be one, or
another byte. -/
inductive Token where
  | escape (x y : UInt8)
  | broken (rest : List UInt8)
  | plain (c : UInt8)
  deriving DecidableEq

namespace Token

/-- An escape has two digits. -/
def WellFormed : Token → Prop
  | .escape x y => isHex x ∧ isHex y
  | .broken _ => False
  | .plain _ => True

/-- The byte an escape names; a plus sign means a space. -/
def byte : Token → UInt8
  | .escape x y => UInt8.ofNat (hexValue x * 16 + hexValue y)
  | .broken _ => 37
  | .plain c => if c = 43 then 32 else c

end Token

/-- The scan. -/
def tokens : List UInt8 → List Token
  | [] => []
  | c :: rest =>
    if c = 37 then
      match rest with
      | x :: y :: rest => .escape x y :: tokens rest
      | rest => [.broken rest]
    else .plain c :: tokens rest

end Rfc3986
end UnixNetwork
