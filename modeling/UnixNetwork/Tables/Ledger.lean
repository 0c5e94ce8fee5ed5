import Mathlib.Data.Finset.Card
import Mathlib.Data.Fintype.Basic
import Mathlib.Data.Int.Basic
import UnixNetwork.Tables.Slots

/-!
# Resources and a counter beside them

A program opens resources, closes them, and counts in a variable how many there are.  The
variable does not change in the same step as the set: a resource is opened and then
counted (`entering`), and is counted off by one of several agents, which then closes it
(`leaving`).  The counter is the number of the resources that are in neither state,
`settled`, as long as an agent only counts off what is settled (`Balanced.leave`), and no
longer (`count_leave_iff`).

`opens` and `closes` are how often each resource was opened and closed, so that `Balanced`
also says that none is closed more often than it was opened.
-/

namespace UnixNetwork

/-- Resources that agents close, and a counter. -/
structure Ledger (T R : Type*) where
  opened : Finset R
  /-- opened, not counted yet -/
  entering : Option R
  /-- what an agent has counted off and not closed yet -/
  leaving : T → Option R
  count : ℤ
  opens : R → ℕ
  closes : R → ℕ

namespace Ledger

variable {T R : Type*}

variable [DecidableEq R]

/-- A resource is opened. -/
def opening (l : Ledger T R) (r : R) : Ledger T R :=
  { l with opened := insert r l.opened
           entering := some r
           opens := Function.update l.opens r (l.opens r + 1) }

/-- It is counted. -/
def enter (l : Ledger T R) : Ledger T R := { l with entering := none, count := l.count + 1 }

/-- An agent counts a resource off. -/
def leave [DecidableEq T] (l : Ledger T R) (t : T) (r : R) : Ledger T R :=
  { l with leaving := Function.update l.leaving t (some r), count := l.count - 1 }

/-- It closes it. -/
def close [DecidableEq T] (l : Ledger T R) (t : T) (r : R) : Ledger T R :=
  { l with opened := l.opened.erase r
           leaving := Function.update l.leaving t none
           closes := Function.update l.closes r (l.closes r + 1) }

variable [Fintype T]

/-- The resources that are open, counted, and not being closed. -/
def settled (l : Ledger T R) : Finset R :=
  l.opened.filter fun r => l.entering ≠ some r ∧ ∀ t, l.leaving t ≠ some r

/-- The counter is right, and nothing was closed twice. -/
structure Balanced (base : ℤ) (l : Ledger T R) : Prop where
  count : l.count = base + l.settled.card
  entering : ∀ r, l.entering = some r → r ∈ l.opened
  leaving : ∀ t r, l.leaving t = some r → r ∈ l.opened ∧ l.entering ≠ some r
  unique : ∀ t u r, l.leaving t = some r → l.leaving u = some r → t = u
  closes : ∀ r, l.closes r + (if r ∈ l.opened then 1 else 0) = l.opens r

variable {base : ℤ} {l : Ledger T R} {t : T} {r : R}

theorem mem_settled :
    r ∈ l.settled ↔ r ∈ l.opened ∧ l.entering ≠ some r ∧ ∀ t, l.leaving t ≠ some r :=
  Finset.mem_filter

/-! ## What is settled after each operation -/

theorem settled_opening (hr : r ∉ l.opened) (henter : l.entering = none) :
    (l.opening r).settled = l.settled := by
  ext x
  rw [mem_settled, mem_settled, opening]
  dsimp only
  rw [Finset.mem_insert, henter]
  constructor
  · rintro ⟨hx, hne, hleave⟩
    exact ⟨hx.resolve_left fun hxr => hne (congrArg some hxr.symm), nofun, hleave⟩
  · rintro ⟨hx, -, hleave⟩
    refine ⟨Or.inr hx, fun hrx => ?_, hleave⟩
    rw [Option.some.inj hrx] at hr
    exact hr hx

theorem settled_enter (h : Balanced base l) (hr : l.entering = some r) :
    l.enter.settled = insert r l.settled := by
  ext x
  rw [Finset.mem_insert, mem_settled, mem_settled, enter]
  dsimp only
  rw [hr]
  constructor
  · rintro ⟨hx, -, hleave⟩
    by_cases hxr : x = r
    · exact Or.inl hxr
    · exact Or.inr ⟨hx, fun hrx => hxr (Option.some.inj hrx).symm, hleave⟩
  · rintro (rfl | ⟨hx, -, hleave⟩)
    · exact ⟨h.entering x hr, nofun, fun t ht => (h.leaving t x ht).2 hr⟩
    · exact ⟨hx, nofun, hleave⟩

section Agents

variable [DecidableEq T]

theorem settled_leave (ht : l.leaving t = none) : (l.leave t r).settled = l.settled.erase r := by
  ext x
  rw [Finset.mem_erase, mem_settled, mem_settled, leave]
  dsimp only
  constructor
  · rintro ⟨hx, hne, hleave⟩
    refine ⟨?_, hx, hne, fun u hu => ?_⟩
    · rintro rfl
      exact hleave t (Function.update_self ..)
    · refine hleave u (Slots.update_eq_some_iff.mpr (Or.inr ⟨?_, hu⟩))
      rintro rfl
      rw [ht] at hu
      cases hu
  · rintro ⟨hxr, hx, hne, hleave⟩
    refine ⟨hx, hne, fun u hu => ?_⟩
    rcases Slots.update_eq_some_iff.mp hu with ⟨-, hrx⟩ | ⟨-, hu⟩
    · exact hxr (Option.some.inj hrx).symm
    · exact hleave u hu

theorem settled_close (ht : l.leaving t = some r) : (l.close t r).settled = l.settled := by
  ext x
  rw [mem_settled, mem_settled, close]
  dsimp only
  rw [Finset.mem_erase]
  constructor
  · rintro ⟨⟨hxr, hx⟩, hne, hleave⟩
    refine ⟨hx, hne, fun u hu => ?_⟩
    by_cases hut : u = t
    · rw [hut, ht] at hu
      exact hxr (Option.some.inj hu).symm
    · exact hleave u (Slots.update_eq_some_iff.mpr (Or.inr ⟨hut, hu⟩))
  · rintro ⟨hx, hne, hleave⟩
    refine ⟨⟨?_, hx⟩, hne, fun u hu => ?_⟩
    · rintro rfl
      exact hleave t ht
    · rcases Slots.update_eq_some_iff.mp hu with ⟨-, hnone⟩ | ⟨-, hu⟩
      · cases hnone
      · exact hleave u hu

end Agents

/-! ## The ledger stays balanced -/

namespace Balanced

theorem opening (h : Balanced base l) (hr : r ∉ l.opened) (henter : l.entering = none) :
    Balanced base (l.opening r) where
  count := by
    rw [settled_opening hr henter]
    exact h.count
  entering := by
    rintro x hx
    cases hx
    exact Finset.mem_insert_self ..
  leaving := by
    intro t x hx
    have hmem : x ∈ l.opened := (h.leaving t x hx).1
    refine ⟨Finset.mem_insert_of_mem hmem, fun hrx => ?_⟩
    rw [Option.some.inj hrx] at hr
    exact hr hmem
  unique := h.unique
  closes := by
    intro x
    have hx := h.closes x
    simp only [Ledger.opening, Finset.mem_insert]
    by_cases hxr : x = r
    · rw [hxr, if_neg hr] at hx
      rw [hxr, if_pos (Or.inl rfl), Function.update_self, ← hx]
    · rw [Function.update_of_ne hxr, ← hx]
      simp only [hxr, false_or]

theorem enter (h : Balanced base l) (hr : l.entering = some r) : Balanced base l.enter where
  count := by
    have hnot : r ∉ l.settled := fun hmem => (mem_settled.mp hmem).2.1 hr
    rw [settled_enter h hr, Finset.card_insert_of_notMem hnot, Ledger.enter]
    dsimp only
    have hcount := h.count
    omega
  entering := nofun
  leaving := fun t x hx => ⟨(h.leaving t x hx).1, nofun⟩
  unique := h.unique
  closes := h.closes

theorem closes_le (h : Balanced base l) (r : R) : l.closes r ≤ l.opens r :=
  (h.closes r).le.trans' (Nat.le_add_right ..)

theorem base_le (h : Balanced base l) : base ≤ l.count := by
  have hcount := h.count
  omega

/-- With nothing between opening and counting, or between counting off and closing, all
that is open is settled. -/
theorem count_of_rest (h : Balanced base l) (henter : l.entering = none)
    (hleave : ∀ t, l.leaving t = none) : l.count = base + l.opened.card := by
  have hall : l.settled = l.opened := by
    refine Finset.filter_true_of_mem fun r _ => ⟨?_, fun t => ?_⟩
    · rw [henter]
      nofun
    · rw [hleave t]
      nofun
  rw [h.count, hall]

variable [DecidableEq T]

/-- An agent counts off what is settled. -/
theorem leave (h : Balanced base l) (ht : l.leaving t = none) (hr : r ∈ l.settled) :
    Balanced base (l.leave t r) where
  count := by
    have hcard := Finset.card_erase_add_one hr
    have hcount := h.count
    rw [settled_leave ht, Ledger.leave]
    dsimp only
    omega
  entering := h.entering
  leaving := by
    intro u x hu
    rcases Slots.update_eq_some_iff.mp hu with ⟨-, hrx⟩ | ⟨-, hu⟩
    · obtain rfl := Option.some.inj hrx
      exact ⟨(mem_settled.mp hr).1, (mem_settled.mp hr).2.1⟩
    · exact h.leaving u x hu
  unique := by
    intro u v x hu hv
    -- nobody else was leaving what was settled
    rcases Slots.update_eq_some_iff.mp hu with ⟨hut, hrx⟩ | ⟨-, hu⟩ <;>
      rcases Slots.update_eq_some_iff.mp hv with ⟨hvt, hrx'⟩ | ⟨-, hv⟩
    · rw [hut, hvt]
    · rw [Option.some.inj hrx] at hr
      exact absurd hv ((mem_settled.mp hr).2.2 v)
    · rw [Option.some.inj hrx'] at hr
      exact absurd hu ((mem_settled.mp hr).2.2 u)
    · exact h.unique u v x hu hv
  closes := h.closes

theorem close (h : Balanced base l) (ht : l.leaving t = some r) : Balanced base (l.close t r) where
  count := by
    rw [settled_close ht]
    exact h.count
  entering := by
    intro x hx
    refine Finset.mem_erase.mpr ⟨?_, h.entering x hx⟩
    rintro rfl
    exact (h.leaving t x ht).2 hx
  leaving := by
    intro u x hu
    rcases Slots.update_eq_some_iff.mp hu with ⟨-, hnone⟩ | ⟨hut, hu⟩
    · cases hnone
    · have hxr : x ≠ r := by
        intro hxr
        rw [hxr] at hu
        exact hut (h.unique u t r hu ht)
      exact ⟨Finset.mem_erase.mpr ⟨hxr, (h.leaving u x hu).1⟩, (h.leaving u x hu).2⟩
  unique := by
    intro u v x hu hv
    rcases Slots.update_eq_some_iff.mp hu with ⟨-, hnone⟩ | ⟨-, hu⟩
    · cases hnone
    rcases Slots.update_eq_some_iff.mp hv with ⟨-, hnone⟩ | ⟨-, hv⟩
    · cases hnone
    exact h.unique u v x hu hv
  closes := by
    intro x
    have hx := h.closes x
    simp only [Ledger.close, Finset.mem_erase]
    by_cases hxr : x = r
    · rw [hxr, if_pos (h.leaving t r ht).1] at hx
      rw [hxr, if_neg (fun hmem => hmem.1 rfl), Function.update_self, ← hx]
    · rw [Function.update_of_ne hxr, ← hx]
      simp only [hxr, ne_eq, not_false_eq_true, true_and]

end Balanced

/-- **What keeps the counter right**: to count off what is settled, and nothing else. -/
theorem count_leave_iff [DecidableEq T] (h : l.count = base + l.settled.card) (ht : l.leaving t = none) :
    (l.leave t r).count = base + (l.leave t r).settled.card ↔ r ∈ l.settled := by
  rw [settled_leave ht, leave]
  dsimp only
  by_cases hr : r ∈ l.settled
  · have hcard := Finset.card_erase_add_one hr
    exact iff_of_true (by omega) hr
  · rw [Finset.erase_eq_of_notMem hr]
    exact iff_of_false (by omega) hr

end Ledger

end UnixNetwork
