import UnixNetwork.Bytes.Basic
import UnixNetwork.Protocol.Upgrade

/-!
# Responses and where they end

A response as a client takes it apart: the lines of its head, each ended by a line
end, an empty line, and then the body.  `Response` carries the proofs that this can be
undone, and `parse_bytes` undoes it.

A client that keeps the connection finds the end of the body by the header
`Content-Length`, if there is one; `Announces` says that there is and that it is right.
`decimal` is how numbers are written there.
-/

namespace UnixNetwork
namespace Http

open Bytes
open Upgrade (crlf borderless_crlf)

/-! ## Numbers -/

/-- A number, written out. -/
def decimal (n : ℕ) : List UInt8 := ascii n.repr

theorem decimal_eq (n : ℕ) :
    decimal n = (Nat.toDigits 10 n).map fun c => UInt8.ofNat c.toNat := by
  rw [decimal, ascii, Nat.toList_repr]

/-- The digits of a number fit into bytes. -/
theorem map_toNat_decimal (n : ℕ) :
    (decimal n).map UInt8.toNat = (Nat.toDigits 10 n).map Char.toNat := by
  rw [decimal_eq, List.map_map]
  refine List.map_congr_left fun c hc => ?_
  have hdigit := Nat.isDigit_of_mem_toDigits (by decide) (by decide) hc
  have hle : c.toNat ≤ 57 := by
    rw [Char.isDigit, Bool.and_eq_true, decide_eq_true_eq, decide_eq_true_eq] at hdigit
    exact UInt32.le_iff_toNat_le.mp hdigit.2
  show (UInt8.ofNat c.toNat).toNat = c.toNat
  rw [UInt8.toNat_ofNat']
  exact Nat.mod_eq_of_lt (by omega)

/-- Different numbers are written differently. -/
theorem decimal_injective : Function.Injective decimal := by
  intro m n h
  have hmap := congrArg (List.map UInt8.toNat) h
  rw [map_toNat_decimal, map_toNat_decimal] at hmap
  have hdigits := congrArg (List.foldl (fun sofar c => 10 * sofar + (c - 48)) 0) hmap
  rw [List.foldl_map, List.foldl_map] at hdigits
  have hread : ∀ k, List.foldl (fun sofar (c : Char) => 10 * sofar + (c.toNat - 48)) 0
      (Nat.toDigits 10 k) = k := fun k => Nat.ofDigitChars_ten_toDigits
  rw [hread, hread] at hdigits
  exact hdigits

/-- There is no line end in a number. -/
theorem cr_notMem_decimal (n : ℕ) : (13 : UInt8) ∉ decimal n := by
  intro h
  have hmem : 13 ∈ (Nat.toDigits 10 n).map Char.toNat := by
    rw [← map_toNat_decimal]
    exact List.mem_map_of_mem (f := UInt8.toNat) h
  obtain ⟨c, hc, hc13⟩ := List.mem_map.mp hmem
  have hdigit := Nat.isDigit_of_mem_toDigits (by decide) (by decide) hc
  rw [Char.isDigit, Bool.and_eq_true, decide_eq_true_eq, decide_eq_true_eq] at hdigit
  have h48 : 48 ≤ c.toNat := UInt32.le_iff_toNat_le.mp hdigit.1
  omega

/-! ## Taking a response apart -/

/-- The first line of a string, without its end, and what follows. -/
def line : List UInt8 → Option (List UInt8 × List UInt8)
  | [] => none
  | c :: rest =>
    if crlf <+: c :: rest then some ([], rest.drop 1)
    else (line rest).map fun p => (c :: p.1, p.2)

/-- The lines before the first empty one, and what follows that. -/
def lines : ℕ → List UInt8 → Option (List (List UInt8) × List UInt8)
  | 0, _ => none
  | fuel + 1, s =>
    match line s with
    | none => none
    | some ([], rest) => some ([], rest)
    | some (c :: l, rest) => (lines fuel rest).map fun p => ((c :: l) :: p.1, p.2)

/-- The head of a response, as lines, and its body. -/
def parse (s : List UInt8) : Option (List (List UInt8) × List UInt8) := lines (s.length + 1) s

/-- A response. -/
structure Response where
  head : List (List UInt8)
  body : List UInt8
  ne_nil : ∀ l ∈ head, l ≠ []
  crlf_free : ∀ l ∈ head, ¬ crlf <:+: l

/-- The response as it is sent. -/
def Response.bytes (r : Response) : List UInt8 :=
  (r.head.map (· ++ crlf)).flatten ++ (crlf ++ r.body)

theorem Response.length_bytes (r : Response) :
    r.bytes.length = (r.head.map (· ++ crlf)).flatten.length + (crlf.length + r.body.length) := by
  rw [Response.bytes, List.length_append, List.length_append]

/-- What has no carriage return has no line end. -/
theorem crlf_free_of_notMem {l : List UInt8} (h : (13 : UInt8) ∉ l) : ¬ crlf <:+: l :=
  fun hsub => h (hsub.subset List.mem_cons_self)

theorem line_append {l : List UInt8} (h : ¬ crlf <:+: l) (t : List UInt8) :
    line (l ++ (crlf ++ t)) = some (l, t) := by
  induction l with
  | nil => rfl
  | cons c l ih =>
    have hl : ¬ crlf <:+: l := fun hsub => h (hsub.trans (List.suffix_cons c l).isInfix)
    have hfirst := Split.not_isPrefix_append borderless_crlf h (List.cons_ne_nil c l) t
    rw [List.cons_append] at hfirst ⊢
    rw [line, if_neg hfirst, ih hl]
    rfl

/-- Lines that are there are found, if the fuel suffices. -/
theorem lines_join {ls : List (List UInt8)} (hne : ∀ l ∈ ls, l ≠ [])
    (hfree : ∀ l ∈ ls, ¬ crlf <:+: l) (body : List UInt8) {fuel : ℕ} (hfuel : ls.length < fuel) :
    lines fuel ((ls.map (· ++ crlf)).flatten ++ (crlf ++ body)) = some (ls, body) := by
  induction ls generalizing fuel with
  | nil =>
    obtain ⟨fuel, rfl⟩ := Nat.exists_eq_succ_of_ne_zero (Nat.ne_of_gt hfuel)
    rfl
  | cons l ls ih =>
    obtain ⟨fuel, rfl⟩ := Nat.exists_eq_succ_of_ne_zero (Nat.ne_of_gt (Nat.lt_of_le_of_lt
      (Nat.zero_le _) hfuel))
    obtain ⟨c, l, rfl⟩ := List.exists_cons_of_ne_nil (hne l List.mem_cons_self)
    have hrest := ih (fun k hk => hne k (List.mem_cons_of_mem _ hk))
      (fun k hk => hfree k (List.mem_cons_of_mem _ hk)) (Nat.lt_of_succ_lt_succ hfuel)
    rw [lines, List.map_cons, List.flatten_cons, List.append_assoc, List.append_assoc,
      line_append (hfree _ List.mem_cons_self)]
    dsimp only
    rw [hrest]
    rfl

/-- **A response is taken apart as it was put together.** -/
theorem parse_bytes (r : Response) : parse r.bytes = some (r.head, r.body) := by
  refine lines_join r.ne_nil r.crlf_free r.body ?_
  have hle := Split.length_le_length_join (by decide : crlf ≠ []) r.head
  rw [Response.bytes, List.length_append]
  omega

/-! ## The length of the body -/

/-- The header that gives the length of the body. -/
def contentLength (n : ℕ) : List UInt8 := ascii "Content-Length:" ++ decimal n

theorem contentLength_injective : Function.Injective contentLength := by
  intro m n h
  exact decimal_injective (List.append_cancel_left h)

/-- What was sent has a head that gives the length of what follows it. -/
def Announces (sent : List UInt8) : Prop :=
  ∃ head body, parse sent = some (head, body) ∧ contentLength body.length ∈ head

theorem announces_bytes_iff (r : Response) :
    Announces r.bytes ↔ contentLength r.body.length ∈ r.head := by
  constructor
  · rintro ⟨head, body, hparse, hmem⟩
    rw [parse_bytes] at hparse
    cases hparse
    exact hmem
  · intro h
    exact ⟨r.head, r.body, parse_bytes r, h⟩

end Http
end UnixNetwork
