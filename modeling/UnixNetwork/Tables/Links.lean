import Mathlib.Logic.Function.Basic
import Mathlib.Data.List.Nodup

/-!
# Linked lists in a heap

Cells with two pointers, to other cells or to nothing.  `Chain` says which cells one
passes going along `next` until it ends; what is written to other cells does not
matter to it (`Chain.congr`).

`Stack` is a chain whose cells all have nothing behind `prev`.  A cell can be put in
front of it without looking at the old front (`Stack.push`), and its front can be
unlinked as from a doubly linked list (`Stack.pop`).
-/

namespace UnixNetwork

/-- The pointers of a cell. -/
structure Links (A : Type*) where
  prev : Option A
  next : Option A

namespace Links

variable {A : Type*}

/-- Going along `next`, one passes these cells and then it ends. -/
inductive Chain (heap : A → Links A) : Option A → List A → Prop
  | nil : Chain heap none []
  | cons {a : A} {l : List A} : Chain heap (heap a).next l → Chain heap (some a) (a :: l)

namespace Chain

variable {heap heap' : A → Links A} {p : Option A} {l : List A}

theorem congr (h : Chain heap p l) (hnext : ∀ a ∈ l, (heap' a).next = (heap a).next) :
    Chain heap' p l := by
  induction h with
  | nil => exact .nil
  | @cons a l _ ih =>
    have ih := ih fun b hb => hnext b (List.mem_cons_of_mem a hb)
    rw [← hnext a List.mem_cons_self] at ih
    exact .cons ih

end Chain

/-- A chain of cells with nothing behind `prev`. -/
structure Stack (heap : A → Links A) (p : Option A) (l : List A) : Prop where
  chain : Chain heap p l
  prev : ∀ a ∈ l, (heap a).prev = none

namespace Stack

variable {heap heap' : A → Links A} {p : Option A} {a : A} {l : List A}

/-- A new front, whatever it had in its pointers. -/
theorem push [DecidableEq A] (h : Stack heap p l) (ha : a ∉ l) :
    Stack (Function.update heap a ⟨none, p⟩) (some a) (a :: l) := by
  have hself : Function.update heap a ⟨none, p⟩ a = ⟨none, p⟩ := Function.update_self ..
  have hother : ∀ b ∈ l, Function.update heap a ⟨none, p⟩ b = heap b := by
    intro b hb
    refine Function.update_of_ne ?_ ..
    rintro rfl
    exact ha hb
  constructor
  · refine .cons ?_
    rw [hself]
    exact h.chain.congr fun b hb => by rw [hother b hb]
  · intro b hb
    rcases List.mem_cons.mp hb with rfl | hb
    · rw [hself]
    · rw [hother b hb]
      exact h.prev b hb

/-- The cells behind the front, whatever happens to the front. -/
theorem pop (h : Stack heap p (a :: l)) (hnext : ∀ b ∈ l, (heap' b).next = (heap b).next)
    (hprev : ∀ b ∈ l, (heap' b).prev = none) : Stack heap' (heap a).next l := by
  refine ⟨?_, hprev⟩
  have hchain := h.chain
  cases hchain with
  | cons hrest => exact hrest.congr hnext

end Stack

end Links

end UnixNetwork
