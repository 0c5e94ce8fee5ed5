import Mathlib.Data.Fintype.Card

/-!
# Tables of slots

A server that keeps its clients in an array of fixed size looks for the first free slot
when a client comes and marks its slot as free again when it goes.  Read as a map from
slots to keys, `Holds` is what such a table is for: it has exactly the keys of a set, each
in one slot.  Filling a free slot and emptying a used one keep it.

Counting gives the rest: there is a free slot as long as there are fewer keys than
slots, and only as long.

A table with a counter can be a stack instead, of which only the slots below the counter
count: `upTo`.  A popped key stays in its slot, but the slot is not below the counter any more.
-/

namespace UnixNetwork
namespace Slots

variable {κ : Type*} {n : ℕ}

/-- What is in a table after one slot was written. -/
theorem update_eq_some_iff {ι : Type*} [DecidableEq ι] {t : ι → Option κ} {o : Option κ} {i j : ι}
    {k : κ} : Function.update t i o j = some k ↔ j = i ∧ o = some k ∨ j ≠ i ∧ t j = some k := by
  by_cases hj : j = i
  · rw [hj, Function.update_self]
    simp
  · rw [Function.update_of_ne hj]
    simp [hj]

/-- The table has exactly these keys, each in one slot. -/
structure Holds (t : Fin n → Option κ) (keys : Finset κ) : Prop where
  mem_iff : ∀ k, k ∈ keys ↔ ∃ i, t i = some k
  inj : ∀ i j k, t i = some k → t j = some k → i = j

namespace Holds

variable {t : Fin n → Option κ} {keys : Finset κ} {i : Fin n} {k : κ}

theorem mem (h : Holds t keys) (hi : t i = some k) : k ∈ keys := (h.mem_iff k).mpr ⟨i, hi⟩

theorem empty : Holds (fun _ : Fin n => (none : Option κ)) ∅ := by
  constructor
  · intro k
    simp
  · intro i j k hi
    cases hi

variable [DecidableEq κ]

/-- A new key in a free slot. -/
theorem insert (h : Holds t keys) (hfree : t i = none) (hk : k ∉ keys) :
    Holds (Function.update t i (some k)) (Insert.insert k keys) := by
  have hother : ∀ j l, Function.update t i (some k) j = some l →
      j = i ∧ l = k ∨ j ≠ i ∧ t j = some l := by
    intro j l hj
    exact (update_eq_some_iff.mp hj).imp_left fun h => ⟨h.1, (Option.some.inj h.2).symm⟩
  constructor
  · intro l
    rw [Finset.mem_insert, h.mem_iff]
    constructor
    · rintro (rfl | ⟨j, hj⟩)
      · exact ⟨i, Function.update_self _ _ _⟩
      · refine ⟨j, ?_⟩
        rw [Function.update_of_ne, hj]
        rintro rfl
        rw [hfree] at hj
        cases hj
    · rintro ⟨j, hj⟩
      rcases hother j l hj with ⟨-, rfl⟩ | ⟨-, hj⟩
      · exact Or.inl rfl
      · exact Or.inr ⟨j, hj⟩
  · intro j₁ j₂ l h₁ h₂
    rcases hother j₁ l h₁ with ⟨rfl, rfl⟩ | ⟨-, h₁'⟩
    · rcases hother j₂ l h₂ with ⟨rfl, -⟩ | ⟨-, h₂'⟩
      · rfl
      · exact absurd (h.mem h₂') hk
    · rcases hother j₂ l h₂ with ⟨rfl, rfl⟩ | ⟨-, h₂'⟩
      · exact absurd (h.mem h₁') hk
      · exact h.inj j₁ j₂ l h₁' h₂'

/-- A used slot becomes free. -/
theorem erase (h : Holds t keys) (hi : t i = some k) :
    Holds (Function.update t i none) (keys.erase k) := by
  have hother : ∀ j l, Function.update t i none j = some l ↔ j ≠ i ∧ t j = some l := by
    intro j l
    rw [update_eq_some_iff]
    exact or_iff_right fun h => Option.some_ne_none l h.2.symm
  constructor
  · intro l
    simp only [Finset.mem_erase, h.mem_iff, hother]
    constructor
    · rintro ⟨hlk, j, hj⟩
      refine ⟨j, ?_, hj⟩
      rintro rfl
      exact hlk (Option.some.inj (hj.symm.trans hi))
    · rintro ⟨j, hji, hj⟩
      refine ⟨?_, j, hj⟩
      rintro rfl
      exact hji (h.inj j i _ hj hi)
  · intro j₁ j₂ l h₁ h₂
    rw [hother] at h₁ h₂
    exact h.inj j₁ j₂ l h₁.2 h₂.2

omit [DecidableEq κ] in
/-- There are as many keys as slots in use. -/
theorem card_eq (h : Holds t keys) :
    (Finset.univ.filter fun i => (t i).isSome).card = keys.card := by
  refine Finset.card_bij (fun i hi => (t i).get (Finset.mem_filter.mp hi).2) ?_ ?_ ?_
  · intro i hi
    exact h.mem (Option.some_get _).symm
  · intro i hi j hj hij
    refine h.inj i j _ (Option.some_get (Finset.mem_filter.mp hi).2).symm ?_
    rw [hij]
    exact (Option.some_get (Finset.mem_filter.mp hj).2).symm
  · intro k hk
    obtain ⟨i, hi⟩ := (h.mem_iff k).mp hk
    refine ⟨i, Finset.mem_filter.mpr ⟨Finset.mem_univ i, by rw [hi]; rfl⟩, ?_⟩
    exact Option.get_of_eq_some _ hi

omit [DecidableEq κ] in
theorem card_le (h : Holds t keys) : keys.card ≤ n := by
  rw [← h.card_eq]
  exact (Finset.card_filter_le _ _).trans_eq (Fintype.card_fin n)

omit [DecidableEq κ] in
/-- **There is a free slot exactly if there are fewer keys than slots.** -/
theorem exists_free_iff (h : Holds t keys) : (∃ i, t i = none) ↔ keys.card < n := by
  have hsplit := Finset.card_filter_add_card_filter_not (s := Finset.univ (α := Fin n))
    fun i => ((t i).isSome : Prop)
  rw [h.card_eq, Finset.card_univ, Fintype.card_fin] at hsplit
  constructor
  · rintro ⟨i, hi⟩
    have hpos : 0 < (Finset.univ.filter fun i => ¬ (t i).isSome).card :=
      Finset.card_pos.mpr ⟨i, by simp [hi]⟩
    omega
  · intro hlt
    have hpos : 0 < (Finset.univ.filter fun i => ¬ (t i).isSome).card := by omega
    obtain ⟨i, hi⟩ := Finset.card_pos.mp hpos
    exact ⟨i, by simpa using hi⟩

end Holds

/-! ## A counter -/

variable {t : Fin n → Option κ} {count : ℤ} {i : Fin n}

/-- The table below a counter. -/
def upTo (t : Fin n → Option κ) (count : ℤ) : Fin n → Option κ := fun i =>
  if ((i : ℕ) : ℤ) < count then t i else none

theorem upTo_eq_some {k : κ} : upTo t count i = some k ↔ ((i : ℕ) : ℤ) < count ∧ t i = some k := by
  unfold upTo
  split
  · rename_i h
    exact (and_iff_right h).symm
  · rename_i h
    exact iff_of_false (fun hnone => by cases hnone) fun hlt => h hlt.1

theorem upTo_eq_none_of_le (h : count ≤ ((i : ℕ) : ℤ)) : upTo t count i = none :=
  if_neg (not_lt.mpr h)

/-- A counter that is not positive leaves nothing. -/
theorem upTo_of_nonpos (h : count ≤ 0) : upTo t count = fun _ => none := by
  funext i
  exact upTo_eq_none_of_le (h.trans (Int.natCast_nonneg _))

/-- Pushing: the slot at the counter is filled, and the counter goes up. -/
theorem upTo_push (hi : count = ((i : ℕ) : ℤ)) (k : κ) :
    upTo (Function.update t i (some k)) (count + 1) = Function.update (upTo t count) i (some k) := by
  funext j
  by_cases hji : j = i
  · subst hji
    rw [upTo, Function.update_self, Function.update_self, if_pos (by omega)]
  · have hval : (j : ℕ) ≠ i := fun heq => hji (Fin.ext heq)
    rw [upTo, Function.update_of_ne hji, Function.update_of_ne hji, upTo]
    exact if_congr (by omega) rfl rfl

/-- Popping: the counter goes down, and the slot it comes to is empty. -/
theorem upTo_pop (hi : count - 1 = ((i : ℕ) : ℤ)) :
    upTo t (count - 1) = Function.update (upTo t count) i none := by
  funext j
  by_cases hji : j = i
  · subst hji
    rw [Function.update_self, upTo_eq_none_of_le hi.le]
  · have hval : (j : ℕ) ≠ i := fun heq => hji (Fin.ext heq)
    rw [Function.update_of_ne hji, upTo, upTo]
    exact if_congr (by omega) rfl rfl

end Slots
end UnixNetwork
