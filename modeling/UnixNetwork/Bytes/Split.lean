import Mathlib.Algebra.Order.Ring.Int
import Mathlib.Data.List.Infix
import Mathlib.Data.List.TakeWhile

/-!
# Cutting a string at a delimiter

The usual loop: append the delimiter to the string, look for it from the current
position, take what lies in between as the next piece, and go on behind the
occurrence found.  `splitWith` is that loop, with a function applied to each
piece, and `splitWith_intercalate` says that it undoes joining.

The delimiter must be `Borderless`: otherwise its occurrence after a piece may
start inside the piece, as `aa` after `ba` does.

* `findFrom`, `find`: the first occurrence at or behind a position.
* `findFrom_append`: behind a piece without the delimiter, that is the end of the
  piece.
* `splitLoop_join`: what the loop gives from the start of a piece on.
* `splitWith_singleton`: on a delimiter of one letter the loop is `List.splitOn`.
-/

namespace UnixNetwork
namespace Split

variable {α β : Type*}

/-! ## Borders and joining -/

/-- Only the whole string is both a beginning and an end of it. -/
def Borderless (delim : List α) : Prop :=
  ∀ u, u <+: delim → u <:+ delim → u = [] ∨ u = delim

theorem borderless_singleton (c : α) : Borderless [c] := by
  intro u hu _
  rcases List.prefix_cons_iff.mp hu with rfl | ⟨t, rfl, ht⟩
  · exact Or.inl rfl
  · rw [List.prefix_nil.mp ht]
    exact Or.inr rfl

variable {delim : List α}

/-- No occurrence starts inside a piece: it would end in the piece, or its rest
would be a border of the delimiter. -/
theorem not_isPrefix_append (hd : Borderless delim) {p : List α} (hp : ¬ delim <:+: p)
    (hne : p ≠ []) (t : List α) : ¬ delim <+: p ++ (delim ++ t) := by
  intro h
  rcases List.prefix_or_prefix_of_prefix h (List.prefix_append p _) with hpre | ⟨u, hu⟩
  · exact hp hpre.isInfix
  · have hut : u <+: delim ++ t := by
      have hpu : p ++ u <+: p ++ (delim ++ t) := hu ▸ h
      exact (List.prefix_append_right_inj p).mp hpu
    have hlen : u.length ≤ delim.length := by
      have := congrArg List.length hu
      rw [List.length_append] at this
      omega
    have hudelim : u <+: delim := List.prefix_of_prefix_length_le hut (List.prefix_append _ _) hlen
    rcases hd u hudelim ⟨p, hu⟩ with rfl | rfl
    · rw [List.append_nil] at hu
      exact hp (hu ▸ List.infix_refl _)
    · exact hne (List.append_left_eq_self.mp hu)

/-- What comes before the first delimiter, if there is one. -/
theorem exists_first_piece (hne : delim ≠ []) {str : List α} (h : delim <:+: str) :
    ∃ p t, ¬ delim <:+: p ∧ str = p ++ (delim ++ t) := by
  induction str with
  | nil => exact absurd (List.infix_nil.mp h) hne
  | cons c rest ih =>
    by_cases hpre : delim <+: c :: rest
    · obtain ⟨t, ht⟩ := hpre
      exact ⟨[], t, fun h => hne (List.infix_nil.mp h), ht.symm⟩
    · obtain ⟨p, t, hp, rfl⟩ := ih ((List.infix_cons_iff.mp h).resolve_left hpre)
      refine ⟨c :: p, t, fun h => ?_, rfl⟩
      obtain hstart | hinside := List.infix_cons_iff.mp h
      · exact hpre (hstart.trans ⟨delim ++ t, rfl⟩)
      · exact hp hinside

/-- The string the loop walks over, as pieces that each end in the delimiter. -/
theorem intercalate_append (delim : List α) {ps : List (List α)} (hps : ps ≠ []) :
    List.intercalate delim ps ++ delim = (ps.map (· ++ delim)).flatten := by
  induction ps with
  | nil => exact absurd rfl hps
  | cons p ps ih =>
    cases ps with
    | nil => simp
    | cons q qs =>
      rw [List.intercalate_cons_cons, List.append_assoc, ih (List.cons_ne_nil _ _)]
      rfl

/-- An empty last piece is a delimiter at the end. -/
theorem intercalate_concat_nil (delim : List α) (ps : List (List α)) :
    List.intercalate delim (ps ++ [[]]) = (ps.map (· ++ delim)).flatten := by
  have h := intercalate_append delim (List.append_ne_nil_of_right_ne_nil ps
    (List.cons_ne_nil ([] : List α) []))
  rw [List.map_append, List.flatten_append] at h
  exact List.append_cancel_right (h.trans (by simp))

/-- Every string is joined from pieces without the delimiter.  Induction on the length: what is
behind the first delimiter is shorter. -/
theorem exists_pieces (hne : delim ≠ []) (str : List α) :
    ∃ ps, ps ≠ [] ∧ (∀ p ∈ ps, ¬ delim <:+: p) ∧ List.intercalate delim ps = str := by
  have hpos := List.length_pos_iff.mpr hne
  generalize hn : str.length = n
  induction n using Nat.strong_induction_on generalizing str with
  | h n ih =>
    by_cases h : delim <:+: str
    · obtain ⟨p, t, hp, rfl⟩ := exists_first_piece hne h
      have hlt : t.length < n := by
        simp only [List.length_append] at hn
        omega
      obtain ⟨ps, hps, hfree, hjoin⟩ := ih t.length hlt t rfl
      obtain ⟨q, qs, rfl⟩ := List.exists_cons_of_ne_nil hps
      refine ⟨p :: q :: qs, List.cons_ne_nil _ _, List.forall_mem_cons.mpr ⟨hp, hfree⟩, ?_⟩
      rw [List.intercalate_cons_cons, hjoin, List.append_assoc]
    · exact ⟨[str], List.cons_ne_nil _ _, by simpa using h, by simp⟩

/-- There are no more pieces than letters, if each piece is followed by a
delimiter. -/
theorem length_le_length_join (hne : delim ≠ []) (ps : List (List α)) :
    ps.length ≤ (ps.map (· ++ delim)).flatten.length := by
  have hpos := List.length_pos_iff.mpr hne
  induction ps with
  | nil => exact le_rfl
  | cons p ps ih =>
    simp only [List.map_cons, List.flatten_cons, List.length_append, List.length_cons]
    omega

variable [DecidableEq α]

instance (delim : List α) : Decidable (Borderless delim) :=
  decidable_of_iff (∀ u ∈ delim.inits, u <:+ delim → u = [] ∨ u = delim)
    (by simp only [List.mem_inits, Borderless])

/-! ## Finding -/

/-- The first occurrence of `delim` in a list that starts at position `i`. -/
def findFrom (delim : List α) : List α → ℕ → Option ℕ
  | [], i => if delim = [] then some i else none
  | c :: rest, i => if delim <+: c :: rest then some i else findFrom delim rest (i + 1)

/-- The first occurrence of `delim` in `s` at or behind position `i`. -/
def find (s delim : List α) (i : ℕ) : Option ℕ := findFrom delim (s.drop i) i

/-- Behind a piece without the delimiter, the first occurrence is the end of the
piece. -/
theorem findFrom_append (hd : Borderless delim) (hne : delim ≠ []) {p : List α}
    (hp : ¬ delim <:+: p) (t : List α) (i : ℕ) :
    findFrom delim (p ++ (delim ++ t)) i = some (i + p.length) := by
  induction p generalizing i with
  | nil =>
    rw [List.nil_append]
    cases h : delim ++ t with
    | nil => exact absurd (List.append_eq_nil_iff.mp h).1 hne
    | cons c rest =>
      rw [findFrom, ← h, if_pos (List.prefix_append _ _)]
      rfl
  | cons c p ih =>
    have hp' : ¬ delim <:+: p := fun h => hp (h.trans (List.suffix_cons c p).isInfix)
    have hstart := not_isPrefix_append hd hp (List.cons_ne_nil _ _) t
    rw [List.cons_append] at hstart
    rw [List.cons_append, findFrom, if_neg hstart, ih hp' (i + 1), List.length_cons]
    congr 1
    omega

/-- An occurrence found in a string that is not empty starts in it. -/
theorem findFrom_lt {l : List α} {i pos : ℕ} (hl : l ≠ []) (h : findFrom delim l i = some pos) :
    pos < i + l.length := by
  induction l generalizing i with
  | nil => exact absurd rfl hl
  | cons c rest ih =>
    rw [findFrom] at h
    split at h
    · rw [← Option.some.inj h, List.length_cons]
      omega
    · rename_i hpre
      cases rest with
      | nil =>
        rw [findFrom] at h
        split at h
        · rename_i hnil
          exact absurd (hnil ▸ List.nil_prefix) hpre
        · cases h
      | cons d rest =>
        have := ih (List.cons_ne_nil _ _) h
        simp only [List.length_cons] at this ⊢
        omega

/-- An occurrence found lies in the string. -/
theorem findFrom_add_le {l : List α} {i pos : ℕ} (h : findFrom delim l i = some pos) :
    pos + delim.length ≤ i + l.length := by
  induction l generalizing i with
  | nil =>
    rw [findFrom] at h
    split at h
    · rename_i hnil
      rw [← Option.some.inj h, hnil, List.length_nil]
    · cases h
  | cons c rest ih =>
    rw [findFrom] at h
    split at h
    · rename_i hpre
      rw [← Option.some.inj h]
      exact Nat.add_le_add_left hpre.length_le i
    · have := ih h
      rw [List.length_cons]
      omega

theorem find_add_le {s : List α} {i pos : ℕ} (hi : i ≤ s.length) (h : find s delim i = some pos) :
    pos + delim.length ≤ s.length := by
  have := findFrom_add_le h
  rw [List.length_drop] at this
  omega

theorem find_lt {s : List α} {i pos : ℕ} (hi : i < s.length) (h : find s delim i = some pos) :
    pos < s.length := by
  have hne : s.drop i ≠ [] := by
    rw [Ne, List.drop_eq_nil_iff]
    omega
  have := findFrom_lt hne h
  rw [List.length_drop] at this
  omega

/-! ## The loop -/

/-- The loop from position `i` on: every occurrence found ends a piece, and a
position with no occurrence behind it is passed over.  No result means that the
steps allowed were not enough. -/
def splitLoop (push : List α → β) (strs delim : List α) : ℕ → ℕ → Option (List β)
  | 0, _ => none
  | fuel + 1, i =>
    if i < strs.length then
      match find strs delim i with
      | some pos =>
        (splitLoop push strs delim fuel (pos + delim.length)).map
          (push ((strs.drop i).take (pos - i)) :: ·)
      | none => splitLoop push strs delim fuel (i + 1)
    else some []

/-- The pieces of `str` between the occurrences of `delim`, each with `push`
applied; none at all for the empty string. -/
def splitWith (push : List α → β) (str delim : List α) : Option (List β) :=
  if str = [] then some []
  else splitLoop push (str ++ delim) delim ((str ++ delim).length + 1) 0

/-- From the start of a piece on, the loop gives the pieces.  Induction on the
pieces, with what lies before them as the position reached. -/
theorem splitLoop_join (push : List α → β) (hd : Borderless delim) (hne : delim ≠ [])
    {ps : List (List α)} (h : ∀ p ∈ ps, ¬ delim <:+: p) (done : List α) (fuel : ℕ)
    (hfuel : ps.length < fuel) :
    splitLoop push (done ++ (ps.map (· ++ delim)).flatten) delim fuel done.length =
      some (ps.map push) := by
  induction ps generalizing done fuel with
  | nil =>
    obtain ⟨fuel, rfl⟩ : ∃ k, fuel = k + 1 := ⟨fuel - 1, by omega⟩
    simp [splitLoop]
  | cons p ps ih =>
    obtain ⟨fuel, rfl⟩ : ∃ k, fuel = k + 1 := ⟨fuel - 1, by omega⟩
    have hpos := List.length_pos_iff.mpr hne
    have hdrop : (done ++ ((p :: ps).map (· ++ delim)).flatten).drop done.length =
        p ++ (delim ++ (ps.map (· ++ delim)).flatten) := by
      rw [List.drop_left, List.map_cons, List.flatten_cons, List.append_assoc]
    have hlt : done.length < (done ++ ((p :: ps).map (· ++ delim)).flatten).length := by
      simp only [List.map_cons, List.flatten_cons, List.length_append]
      omega
    have hrest : done ++ ((p :: ps).map (· ++ delim)).flatten =
        done ++ p ++ delim ++ (ps.map (· ++ delim)).flatten := by
      simp only [List.map_cons, List.flatten_cons, List.append_assoc]
    have hnext : done.length + p.length + delim.length = (done ++ p ++ delim).length := by
      simp only [List.length_append]
    rw [splitLoop, if_pos hlt, find, hdrop, findFrom_append hd hne (h p List.mem_cons_self)]
    dsimp only
    rw [Nat.add_sub_cancel_left, List.take_left, hrest, hnext,
      ih (fun q hq => h q (List.mem_cons_of_mem _ hq)) _ _ (by simpa using hfuel)]
    rfl

/-- **The loop undoes joining**: from pieces without the delimiter, joined to a
string that is not empty, it gives back the pieces. -/
theorem splitWith_intercalate (push : List α → β) (hd : Borderless delim) (hne : delim ≠ [])
    {ps : List (List α)} (h : ∀ p ∈ ps, ¬ delim <:+: p) (hstr : List.intercalate delim ps ≠ []) :
    splitWith push (List.intercalate delim ps) delim = some (ps.map push) := by
  have hps : ps ≠ [] := by
    rintro rfl
    exact hstr rfl
  rw [splitWith, if_neg hstr, intercalate_append delim hps]
  have := splitLoop_join push hd hne h [] ((ps.map (· ++ delim)).flatten.length + 1)
    (Nat.lt_succ_of_le (length_le_length_join hne ps))
  simpa using this

/-- There is one way to join a string that is not empty from such pieces. -/
theorem pieces_unique (hd : Borderless delim) (hne : delim ≠ []) {ps qs : List (List α)}
    (hps : ∀ p ∈ ps, ¬ delim <:+: p) (hqs : ∀ q ∈ qs, ¬ delim <:+: q)
    (hjoin : List.intercalate delim ps = List.intercalate delim qs)
    (hstr : List.intercalate delim ps ≠ []) : ps = qs := by
  have hp := splitWith_intercalate id hd hne hps hstr
  have hq := splitWith_intercalate id hd hne hqs (hjoin ▸ hstr)
  rw [hjoin, hq, List.map_id, List.map_id] at hp
  exact (Option.some.inj hp).symm

/-! ## Delimiters of one letter -/

theorem notMem_of_mem_splitOn {c : α} {str p : List α} (h : p ∈ str.splitOn c) : c ∉ p := by
  induction str generalizing p with
  | nil =>
    rw [List.splitOn_nil, List.mem_singleton] at h
    rw [h]
    exact List.not_mem_nil
  | cons x str ih =>
    rw [List.splitOn_cons_eq_if_modifyHead] at h
    split at h
    · rcases List.mem_cons.mp h with rfl | h
      · exact List.not_mem_nil
      · exact ih h
    · rename_i hx
      obtain ⟨q, qs, hq⟩ := List.exists_cons_of_ne_nil (List.splitOn_ne_nil c str)
      rw [hq, List.modifyHead_cons] at h
      rcases List.mem_cons.mp h with rfl | h
      · rw [List.mem_cons, not_or]
        exact ⟨fun hcx => hx (by simp [hcx]), ih (hq ▸ List.mem_cons_self)⟩
      · exact ih (hq ▸ List.mem_cons_of_mem _ h)

/-- What comes before the first `c`, if a `c` follows. -/
theorem takeWhile_append_cons (c : α) (l t : List α) :
    (l ++ c :: t).takeWhile (· ≠ c) = l.takeWhile (· ≠ c) := by
  induction l with
  | nil => simp
  | cons x l ih =>
    rw [List.cons_append, List.takeWhile_cons, List.takeWhile_cons, ih]

/-- No byte of a list is `c` if nothing is cut off before a `c`. -/
theorem notMem_of_length_takeWhile {c : α} {l : List α}
    (h : l.length ≤ (l.takeWhile (· ≠ c)).length) : c ∉ l := by
  have hself : l.takeWhile (· ≠ c) = l :=
    (List.takeWhile_prefix _).eq_of_length (le_antisymm (List.takeWhile_prefix _).length_le h)
  intro hc
  have := List.takeWhile_eq_self_iff.mp hself c hc
  simp at this

theorem takeWhile_of_notMem {c : α} {l : List α} (h : c ∉ l) :
    l.takeWhile (· ≠ c) = l := by
  rw [List.takeWhile_eq_self_iff]
  intro x hx
  rw [decide_eq_true_eq]
  rintro rfl
  exact h hx

/-- A beginning that has a `c` already tells what comes before the first one. -/
theorem takeWhile_of_isPrefix {c : α} {l l' : List α} (h : l <+: l') (hc : c ∈ l) :
    l.takeWhile (· ≠ c) = l'.takeWhile (· ≠ c) := by
  obtain ⟨t, rfl⟩ := h
  obtain ⟨a, b, rfl⟩ := List.append_of_mem hc
  rw [List.append_assoc, List.cons_append, takeWhile_append_cons, takeWhile_append_cons]

/-- The first piece is what comes before the first delimiter. -/
theorem splitOn_eq_cons (c : α) (str : List α) :
    str.splitOn c = str.takeWhile (· ≠ c) :: (str.splitOn c).tail := by
  induction str with
  | nil => rfl
  | cons x str ih =>
    rw [List.splitOn_cons_eq_if_modifyHead]
    by_cases hx : x = c
    · simp [hx]
    · rw [if_neg (by simpa using hx), ih]
      simp [hx]

/-- **On one letter, the loop is `List.splitOn`.** -/
theorem splitWith_singleton (push : List α → β) (c : α) {str : List α} (hstr : str ≠ []) :
    splitWith push str [c] = some ((str.splitOn c).map push) := by
  have hjoin : List.intercalate [c] (str.splitOn c) = str := List.intercalate_splitOn c
  have hpieces : ∀ p ∈ str.splitOn c, ¬ [c] <:+: p := by
    intro p hp hc
    exact notMem_of_mem_splitOn hp ((List.singleton_infix_iff c p).mp hc)
  have := splitWith_intercalate push (borderless_singleton c) (List.cons_ne_nil _ _) hpieces
    (by rwa [hjoin])
  rwa [hjoin] at this

end Split
end UnixNetwork
