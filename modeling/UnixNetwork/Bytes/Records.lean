import Mathlib.Data.List.Infix

/-!
# Cutting a stream into records

A stream is cut behind each delimiter, and behind each `k` letters that have none.
`cut` does it letter by letter, with what the record at work has so far; `unfinished` is
what that record has in the end.

* `flatten_cut`: the records make the stream.
* `notMem_dropLast_of_mem_cut`, `getLast?_or_length_of_mem_dropLast_cut`: where a record ends.
* `exists_full_mem_cut_iff`: when a record is cut off for its length.
-/

namespace UnixNetwork
namespace Bytes

variable {α : Type*}

/-- A part without delimiter lies on one side of each delimiter. -/
theorem infix_of_append_cons {d : α} {part l r : List α} (hpart : d ∉ part)
    (h : part <:+: l ++ d :: r) : part <:+: l ∨ part <:+: r := by
  obtain ⟨a, b, hab⟩ := h
  rcases List.append_eq_append_iff.mp hab with ⟨m, hl, hm⟩ | ⟨m, hl, hm⟩
  · exact Or.inl ⟨a, m, hl.symm⟩
  · rcases List.append_eq_append_iff.mp hl with ⟨m', hl', hpart'⟩ | ⟨m', hl', hpart'⟩
    · rcases m with _ | ⟨e, m⟩
      · rw [List.append_nil] at hpart'
        exact Or.inl ⟨a, [], by rw [List.append_nil, hl', hpart']⟩
      · have hed : d = e := (List.cons.inj hm).1
        rw [hpart', hed] at hpart
        exact absurd (List.mem_append_right _ List.mem_cons_self) hpart
    · rw [hpart', List.append_assoc] at hm
      rcases m' with _ | ⟨e, m'⟩
      · rcases part with _ | ⟨e, part⟩
        · exact Or.inl List.nil_infix
        · have hed : d = e := (List.cons.inj hm).1
          rw [hed] at hpart
          exact absurd List.mem_cons_self hpart
      · have hr : r = m' ++ (part ++ b) := (List.cons.inj hm).2
        exact Or.inr ⟨m', b, by rw [hr, List.append_assoc]⟩

/-- A list of lists none of which is empty. -/
theorem length_le_length_flatten {L : List (List α)} (h : [] ∉ L) :
    L.length ≤ L.flatten.length := by
  induction L with
  | nil => exact le_rfl
  | cons l L ih =>
    rw [List.mem_cons, not_or] at h
    have hpos : 0 < l.length := List.length_pos_iff.mpr (Ne.symm h.1)
    have := ih h.2
    rw [List.flatten_cons, List.length_append, List.length_cons]
    omega

variable [DecidableEq α]

/-- The records of a stream, the first of which has begun with `begun`. -/
def cut (d : α) (k : ℕ) : List α → List α → List (List α)
  | begun, [] => if begun = [] then [] else [begun]
  | begun, c :: stream =>
    if c = d ∨ ¬ begun.length + 1 < k then (begun ++ [c]) :: cut d k [] stream
    else cut d k (begun ++ [c]) stream

/-- What the record at work has after one more letter, nothing if that was its last. -/
def grow (d : α) (k : ℕ) (begun : List α) (c : α) : List α :=
  if c = d ∨ ¬ begun.length + 1 < k then [] else begun ++ [c]

/-- What the record at work has when the stream breaks off. -/
def unfinished (d : α) (k : ℕ) (begun stream : List α) : List α := stream.foldl (grow d k) begun

variable {d : α} {k : ℕ}

/-- The records make the stream. -/
theorem flatten_cut (begun stream : List α) : (cut d k begun stream).flatten = begun ++ stream := by
  induction stream generalizing begun with
  | nil =>
    rw [cut, List.append_nil]
    split
    · rename_i h
      rw [h, List.flatten_nil]
    · rw [List.flatten_cons, List.flatten_nil, List.append_nil]
  | cons c stream ih =>
    rw [cut]
    split
    · rw [List.flatten_cons, ih, List.nil_append, List.append_assoc, List.singleton_append]
    · rw [ih, List.append_assoc, List.singleton_append]

/-- No record is empty. -/
theorem nil_notMem_cut (begun stream : List α) : [] ∉ cut d k begun stream := by
  induction stream generalizing begun with
  | nil =>
    rw [cut]
    split
    · exact List.not_mem_nil
    · rename_i h
      rw [List.mem_singleton]
      exact Ne.symm h
  | cons c stream ih =>
    rw [cut]
    split
    · rw [List.mem_cons, not_or]
      exact ⟨(List.append_ne_nil_of_right_ne_nil _ (List.cons_ne_nil _ _)).symm, ih []⟩
    · exact ih _

/-- There are no more records than letters. -/
theorem length_cut_le (stream : List α) : (cut d k [] stream).length ≤ stream.length := by
  have h := length_le_length_flatten (nil_notMem_cut (d := d) (k := k) [] stream)
  rwa [flatten_cut, List.nil_append] at h

/-- A record has its delimiter last, if at all. -/
theorem notMem_dropLast_of_mem_cut {begun stream l : List α} (hbegun : d ∉ begun)
    (h : l ∈ cut d k begun stream) : d ∉ l.dropLast := by
  induction stream generalizing begun with
  | nil =>
    rw [cut] at h
    split at h
    · cases h
    · rw [List.mem_singleton] at h
      rw [h]
      exact fun hmem => hbegun (List.mem_of_mem_dropLast hmem)
  | cons c stream ih =>
    rw [cut] at h
    split at h
    · rcases List.mem_cons.mp h with rfl | h
      · rwa [List.dropLast_concat]
      · exact ih List.not_mem_nil h
    · rename_i hc
      refine ih ?_ h
      rw [List.mem_append, List.mem_singleton, not_or]
      exact ⟨hbegun, fun hd => hc (Or.inl hd.symm)⟩

/-- A record before the last one ends in the delimiter or has all the letters allowed. -/
theorem getLast?_or_length_of_mem_dropLast_cut {begun : List α} (stream : List α) {l : List α}
    (hk : begun.length < k) (h : l ∈ (cut d k begun stream).dropLast) : l.getLast? = some d ∨ l.length = k := by
  induction stream generalizing begun with
  | nil =>
    rw [cut] at h
    split at h <;> cases h
  | cons c stream ih =>
    rw [cut] at h
    split at h
    · rename_i hc
      have hmem : l = begun ++ [c] ∨ l ∈ (cut d k [] stream).dropLast := by
        rcases hcut : cut d k [] stream with _ | ⟨l', rest⟩
        · rw [hcut] at h
          cases h
        · rw [hcut, List.dropLast_cons_cons] at h
          exact List.mem_cons.mp h
      rcases hmem with rfl | hmem
      · rcases hc with rfl | hlen
        · exact Or.inl List.getLast?_concat
        · rw [List.length_append, List.length_singleton]
          exact Or.inr (by omega)
      · have hpos : ([] : List α).length < k := Nat.zero_lt_of_lt hk
        exact ih hpos hmem
    · rename_i hc
      refine ih ?_ h
      rw [List.length_append, List.length_singleton]
      exact not_not.mp fun hlt => hc (Or.inr hlt)

/-- A part of so many letters without delimiter shows in a record. -/
theorem exists_full_mem_cut {begun stream part : List α} (hbegun : d ∉ begun)
    (hk : begun.length < k) (h : part <:+: begun ++ stream) (hlen : part.length = k)
    (hpart : d ∉ part) : ∃ l ∈ cut d k begun stream, l.length = k ∧ d ∉ l := by
  induction stream generalizing begun with
  | nil =>
    have hle := h.length_le
    rw [List.append_nil] at hle
    omega
  | cons c stream ih =>
    have hnil : ([] : List α).length < k := Nat.zero_lt_of_lt hk
    rw [cut]
    by_cases hc : c = d
    · rw [if_pos (Or.inl hc)]
      rw [hc] at h
      rcases infix_of_append_cons hpart h with hin | hin
      · have hle := hin.length_le
        omega
      · obtain ⟨l, hl, hfull⟩ := ih List.not_mem_nil hnil hin
        exact ⟨l, List.mem_cons_of_mem _ hl, hfull⟩
    · have hbegun' : d ∉ begun ++ [c] := by
        rw [List.mem_append, List.mem_singleton, not_or]
        exact ⟨hbegun, Ne.symm hc⟩
      by_cases hlt : begun.length + 1 < k
      · rw [if_neg (not_or.mpr ⟨hc, not_not.mpr hlt⟩)]
        refine ih hbegun' ?_ ?_
        · rwa [List.length_append, List.length_singleton]
        · rwa [List.append_assoc, List.singleton_append]
      · rw [if_pos (Or.inr hlt)]
        refine ⟨begun ++ [c], List.mem_cons_self, ?_, hbegun'⟩
        rw [List.length_append, List.length_singleton]
        omega

/-- **A record is full** of letters that are not the delimiter just if the stream has so
many in a row. -/
theorem exists_full_mem_cut_iff {stream : List α} (hk : 0 < k) :
    (∃ l ∈ cut d k [] stream, l.length = k ∧ d ∉ l) ↔
      ∃ part, part <:+: stream ∧ part.length = k ∧ d ∉ part := by
  constructor
  · rintro ⟨l, hl, hlen, hd⟩
    refine ⟨l, ?_, hlen, hd⟩
    have := List.infix_of_mem_flatten hl
    rwa [flatten_cut, List.nil_append] at this
  · rintro ⟨part, hin, hlen, hd⟩
    exact exists_full_mem_cut List.not_mem_nil hk hin hlen hd

end Bytes
end UnixNetwork
