import Mathlib.Logic.Function.Basic

/-!
# A mutex and its critical sections

A mutex has an owner or none.  `Owned` says that the owner is just who is at a place
that belongs to the critical section: it is kept by a step that acquires the mutex on
the way into the section (`Owned.acquire`), by one that releases it on the way out
(`Owned.release`), and by all that stay on their side (`Owned.stay_at`).  At most one is
in the section then (`Owned.unique`).
-/

namespace UnixNetwork

variable {T : Type*}

/-- The owner of a mutex is who is in the critical section. -/
def Owned (owner : Option T) (inside : T → Prop) : Prop := ∀ t, owner = some t ↔ inside t

namespace Owned

variable {owner : Option T} {inside inside' : T → Prop} {t t' : T}

theorem unique (h : Owned owner inside) (ht : inside t) (ht' : inside t') : t = t' :=
  Option.some.inj (((h t).mpr ht).symm.trans ((h t').mpr ht'))

/-- Who takes a free mutex goes in. -/
theorem acquire (h : Owned owner inside) (hfree : owner = none)
    (hothers : ∀ u, u ≠ t → (inside' u ↔ inside u)) (ht : inside' t) : Owned (some t) inside' := by
  intro u
  constructor
  · rintro ⟨⟩
    exact ht
  · intro hu
    by_contra hne
    have hut : u ≠ t := fun heq => hne (congrArg some heq.symm)
    have howner := (h u).mpr ((hothers u hut).mp hu)
    rw [hfree] at howner
    cases howner

/-- Who gives the mutex back goes out. -/
theorem release (h : Owned owner inside) (hin : inside t)
    (hothers : ∀ u, u ≠ t → (inside' u ↔ inside u)) (ht : ¬ inside' t) : Owned none inside' := by
  intro u
  constructor
  · intro hu
    cases hu
  · intro hu
    have hut : u ≠ t := by
      rintro rfl
      exact ht hu
    exact absurd (h.unique ((hothers u hut).mp hu) hin) hut

/-- A step of someone who stays on his side of the section. -/
theorem stay_at (h : Owned owner inside) (hothers : ∀ u, u ≠ t → (inside' u ↔ inside u))
    (ht : inside' t ↔ inside t) : Owned owner inside' := by
  intro u
  by_cases hu : u = t
  · rw [hu, ht]
    exact h t
  · rw [hothers u hu]
    exact h u

/-- A step that changes nothing about who is inside. -/
theorem stay (h : Owned owner inside) (hstay : ∀ u, inside' u ↔ inside u) : Owned owner inside' :=
  fun u => (h u).trans (hstay u).symm

end Owned

end UnixNetwork
