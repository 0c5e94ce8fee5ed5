import Mathlib.Order.Basic
import Mathlib.Order.Nat
import Mathlib.Tactic.Common

/-!
# Loops that make calls

The body of a loop is a function of where the loop is and of what the calls of the round
give; it ends in the next round or returns.  `after` runs the loop for a number of rounds
on a sequence of what the calls give.

A loop that has returned stays so (`after_of_returned`).  There are two rules: `after_invariant`
for what holds before every round and at the end, and `exists_returned` for loops that
return.  The second asks for a rank that no round increases, and that is smaller after the
rounds that make progress, of which there have to be enough.
-/

namespace UnixNetwork

/-- A loop, before a round or behind its last one. -/
inductive Progress (S R : Type*) where
  | running (s : S)
  | returned (r : R)
  deriving DecidableEq

namespace Progress

variable {S R I : Type*}

/-- One more round, if there is one. -/
def next (body : S → I → Progress S R) : Progress S R → I → Progress S R
  | .running s, i => body s i
  | .returned r, _ => .returned r

/-- Where the loop is after a number of rounds. -/
def after (body : S → I → Progress S R) (p : Progress S R) (σ : ℕ → I) : ℕ → Progress S R
  | 0 => p
  | m + 1 => next body (after body p σ m) (σ m)

/-- The condition of a loop, when it holds -/
theorem ite_eq_running_iff {c : Prop} [Decidable c] {s s' : S} {r : R} :
    (if c then Progress.running s else .returned r) = .running s' ↔ c ∧ s = s' := by
  split <;> simp [*]

/-- and when it does not. -/
theorem ite_eq_returned_iff {c : Prop} [Decidable c] {s : S} {r r' : R} :
    (if c then Progress.running s else .returned r) = .returned r' ↔ ¬ c ∧ r = r' := by
  split <;> simp [*]

variable {body : S → I → Progress S R} {p : Progress S R} {σ : ℕ → I}

theorem after_succ {m : ℕ} {s : S} (h : after body p σ m = .running s) :
    after body p σ (m + 1) = body s (σ m) := by
  rw [after, h, next]

theorem after_of_returned {m k : ℕ} {r : R} (h : after body p σ m = .returned r) (hle : m ≤ k) :
    after body p σ k = .returned r := by
  induction k, hle using Nat.le_induction with
  | base => exact h
  | succ k _ ih => rw [after, ih, next]

/-- **The invariant rule.** -/
theorem after_invariant {P : Progress S R → Prop} (h0 : P p)
    (hbody : ∀ m s, after body p σ m = .running s → P (.running s) → P (body s (σ m))) (m : ℕ) :
    P (after body p σ m) := by
  induction m with
  | zero => exact h0
  | succ m ih =>
    cases h : after body p σ m with
    | running s =>
      rw [after_succ h]
      exact hbody m s h (h ▸ ih)
    | returned r =>
      rw [after, h, next]
      exact h ▸ ih

/-- Where a loop is now, it was on its way to before. -/
theorem running_of_le {m k : ℕ} {s : S} (h : after body p σ k = .running s) (hle : m ≤ k) :
    ∃ s', after body p σ m = .running s' := by
  cases hm : after body p σ m with
  | running s' => exact ⟨s', rfl⟩
  | returned r => cases h.symm.trans (after_of_returned hm hle)

/-- As long as the loop runs, no round increases the rank. -/
theorem rank_le {rank : S → ℕ}
    (hle : ∀ m s s', after body p σ m = .running s → body s (σ m) = .running s' → rank s' ≤ rank s)
    {m k : ℕ} (hmk : m ≤ k) {s s' : S} (hs : after body p σ m = .running s)
    (hs' : after body p σ k = .running s') : rank s' ≤ rank s := by
  induction k, hmk using Nat.le_induction generalizing s' with
  | base =>
    cases hs.symm.trans hs'
    exact le_refl _
  | succ k _ ih =>
    obtain ⟨t, ht⟩ := running_of_le hs' k.le_succ
    rw [after_succ ht] at hs'
    exact (hle k t s' ht hs').trans (ih ht)

/-- **The rule for loops that return.** -/
theorem exists_returned (rank : S → ℕ) (Good : I → Prop)
    (hle : ∀ m s s', after body p σ m = .running s → body s (σ m) = .running s' → rank s' ≤ rank s)
    (hlt : ∀ m s s', after body p σ m = .running s → Good (σ m) → body s (σ m) = .running s' →
      rank s' < rank s)
    (hoften : ∀ m, ∃ k, m ≤ k ∧ Good (σ k)) : ∃ m r, after body p σ m = .returned r := by
  -- from any round on, by induction on the rank
  have key : ∀ n m s, after body p σ m = .running s → rank s = n →
      ∃ m r, after body p σ m = .returned r := by
    intro n
    induction n using Nat.strong_induction_on with
    | h n ih =>
      intro m s hs hn
      obtain ⟨k, hmk, hgood⟩ := hoften m
      cases hk : after body p σ (k + 1) with
      | returned r => exact ⟨k + 1, r, hk⟩
      | running s'' =>
        obtain ⟨s', hs'⟩ := running_of_le hk k.le_succ
        have hlt' := hlt k s' s'' hs' hgood ((after_succ hs').symm.trans hk)
        have hle' := rank_le hle hmk hs hs'
        exact ih (rank s'') (by omega) (k + 1) s'' hk rfl
  cases h : after body p σ 0 with
  | returned r => exact ⟨0, r, h⟩
  | running s => exact key (rank s) 0 s h rfl

end Progress

end UnixNetwork
