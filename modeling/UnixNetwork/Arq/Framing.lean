import Mathlib.Data.List.Basic

/-!
# Messages cut into pieces that count down

A message too long for one datagram is sent as several pieces, each saying how many
of its message are left after it.  A stream of pieces is *framed* by a list of
groups when it is their concatenation and each group counts down to zero
(`Countdown`).

A reader who has taken whole groups so far and sees the beginning of the rest
(`queue`, with `later` still to come) finds the next group with `front`: everything
up to the first piece that has none left.  `Framed.front_eq` says that this is the
next group, whole, as soon as the queue is longer than what its first piece
announces.
-/

namespace UnixNetwork
namespace Framing

variable {α : Type*} {left : α → ℕ}

/-- Each piece says how many follow it. -/
def Countdown (left : α → ℕ) : List α → Prop
  | [] => True
  | a :: l => left a = l.length ∧ Countdown left l

/-- The pieces up to the first that has none left, and what follows them. -/
def front (left : α → ℕ) : List α → List α × List α
  | [] => ([], [])
  | a :: l => if left a = 0 then ([a], l) else (a :: (front left l).1, (front left l).2)

theorem front_append (l : List α) : (front left l).1 ++ (front left l).2 = l := by
  induction l with
  | nil => rfl
  | cons a l ih =>
    unfold front
    split
    · rfl
    · exact congrArg (a :: ·) ih

/-- A group that counts down is the front of what begins with it. -/
theorem front_countdown {g : List α} (hne : g ≠ []) (hg : Countdown left g) (rest : List α) :
    front left (g ++ rest) = (g, rest) := by
  induction g with
  | nil => exact absurd rfl hne
  | cons a g ih =>
    obtain ⟨hleft, hg⟩ := hg
    rw [List.cons_append, front, hleft]
    cases g with
    | nil => rfl
    | cons b g =>
      have hrest := ih (List.cons_ne_nil b g) hg
      rw [if_neg (by simp), hrest]

/-- The front is found by what the pieces announce. -/
theorem front_map {f : α → α} (hf : ∀ a, left (f a) = left a) (l : List α) :
    front left (l.map f) = ((front left l).1.map f, (front left l).2.map f) := by
  induction l with
  | nil => rfl
  | cons a l ih =>
    rw [List.map_cons, front, front, hf]
    split
    · rfl
    · rw [ih]
      rfl

/-- The last piece of a group has none left, and another that has none left can take its
place. -/
theorem Countdown.replace_last {g : List α} {a b : α} (h : Countdown left (g ++ [a]))
    (hb : left b = 0) : left a = 0 ∧ Countdown left (g ++ [b]) := by
  induction g with
  | nil => exact ⟨h.1, hb, trivial⟩
  | cons c g ih =>
    obtain ⟨hc, hrest⟩ := h
    obtain ⟨ha, hrest'⟩ := ih hrest
    refine ⟨ha, ?_, hrest'⟩
    rw [hc]
    show (g ++ [a]).length = (g ++ [b]).length
    rw [List.length_append, List.length_append]
    rfl

/-- A stream of pieces and the groups it is made of. -/
structure Framed (left : α → ℕ) (groups : List (List α)) (pieces : List α) : Prop where
  flatten : groups.flatten = pieces
  nonempty : ∀ g ∈ groups, g ≠ []
  countdown : ∀ g ∈ groups, Countdown left g

namespace Framed

variable {groups : List (List α)} {queue later : List α}

theorem nil : Framed left [] [] where
  flatten := rfl
  nonempty := fun _ hg => absurd hg List.not_mem_nil
  countdown := fun _ hg => absurd hg List.not_mem_nil

theorem append {groups' : List (List α)} {pieces pieces' : List α}
    (h : Framed left groups pieces) (h' : Framed left groups' pieces') :
    Framed left (groups ++ groups') (pieces ++ pieces') where
  flatten := by rw [List.flatten_append, h.flatten, h'.flatten]
  nonempty := fun g hg => (List.mem_append.mp hg).elim (h.nonempty g) (h'.nonempty g)
  countdown := fun g hg => (List.mem_append.mp hg).elim (h.countdown g) (h'.countdown g)

theorem singleton {g : List α} (hne : g ≠ []) (hg : Countdown left g) : Framed left [g] g where
  flatten := by simp
  nonempty := by simpa using hne
  countdown := by simpa using hg

theorem drop_one {g : List α} {pieces : List α} (h : Framed left (g :: groups) (g ++ pieces)) :
    Framed left groups pieces where
  flatten := List.append_cancel_left h.flatten
  nonempty := fun g' hg' => h.nonempty g' (List.mem_cons_of_mem g hg')
  countdown := fun g' hg' => h.countdown g' (List.mem_cons_of_mem g hg')

/-- Pieces that all have none left are groups of their own. -/
theorem singletons {l : List α} (h : ∀ a ∈ l, left a = 0) : Framed left (l.map ([·])) l where
  flatten := by
    induction l with
    | nil => rfl
    | cons a l ih => exact congrArg (a :: ·) (ih fun b hb => h b (List.mem_cons_of_mem a hb))
  nonempty := by
    intro g hg
    obtain ⟨a, -, rfl⟩ := List.mem_map.mp hg
    exact List.cons_ne_nil a []
  countdown := by
    intro g hg
    obtain ⟨a, ha, rfl⟩ := List.mem_map.mp hg
    exact ⟨h a ha, trivial⟩

/-- Putting another last piece in the place of the last one. -/
theorem replace_last {pieces : List α} {a b : α} (h : Framed left groups (pieces ++ [a]))
    (hb : left b = 0) :
    left a = 0 ∧ ∃ init g, groups = init ++ [g ++ [a]] ∧
      Framed left (init ++ [g ++ [b]]) (pieces ++ [b]) := by
  rcases List.eq_nil_or_concat groups with rfl | ⟨init, last, rfl⟩
  · exact absurd h.flatten (by simp)
  rcases List.eq_nil_or_concat last with rfl | ⟨g, c, rfl⟩
  · exact absurd rfl (h.nonempty [] (by simp))
  simp only [List.concat_eq_append] at h ⊢
  have hlast : g ++ [c] ∈ init ++ [g ++ [c]] := List.mem_append_right _ List.mem_cons_self
  have hflat := h.flatten
  rw [List.flatten_append, List.flatten_singleton, ← List.append_assoc] at hflat
  obtain ⟨hinit, hca⟩ := List.append_inj' hflat rfl
  obtain rfl : c = a := List.singleton_inj.mp hca
  obtain ⟨ha, hcount⟩ := (h.countdown _ hlast).replace_last hb
  refine ⟨ha, init, g, rfl, ?_, ?_, ?_⟩
  · rw [List.flatten_append, List.flatten_singleton, ← List.append_assoc, hinit]
  · intro g' hg'
    rcases List.mem_append.mp hg' with hg' | hg'
    · exact h.nonempty g' (List.mem_append_left _ hg')
    · obtain rfl := List.mem_singleton.mp hg'
      simp
  · intro g' hg'
    rcases List.mem_append.mp hg' with hg' | hg'
    · exact h.countdown g' (List.mem_append_left _ hg')
    · obtain rfl := List.mem_singleton.mp hg'
      exact hcount

/-- What a stream that is not at its end begins with. -/
theorem exists_first {a : α} (h : Framed left groups (a :: queue)) :
    ∃ g groups', groups = (a :: g) :: groups' ∧ left a = g.length := by
  cases groups with
  | nil => exact absurd h.flatten (by simp)
  | cons g groups' =>
    cases g with
    | nil => exact absurd rfl (h.nonempty [] List.mem_cons_self)
    | cons b g =>
      have hflat := h.flatten
      rw [List.flatten_cons, List.cons_append, List.cons.injEq] at hflat
      obtain ⟨rfl, -⟩ := hflat
      exact ⟨g, groups', rfl, (h.countdown _ List.mem_cons_self).1⟩

/-- **The front of the queue is the next group**, as soon as the queue is longer than what its
first piece announces. -/
theorem front_eq {a : α} (h : Framed left groups (a :: queue ++ later))
    (hall : left a < (a :: queue).length) :
    ∃ g groups', groups = g :: groups' ∧ (front left (a :: queue)).1 = g ∧
      Framed left groups' ((front left (a :: queue)).2 ++ later) := by
  obtain ⟨g, groups', rfl, hleft⟩ := h.exists_first
  have hflat : g ++ groups'.flatten = queue ++ later := (List.cons.inj h.flatten).2
  obtain ⟨rest, hqueue⟩ : g <+: queue :=
    List.prefix_of_prefix_length_le ⟨groups'.flatten, hflat⟩ (List.prefix_append queue later)
      (by rw [List.length_cons] at hall; omega)
  have hgroup := h.countdown _ List.mem_cons_self
  subst hqueue
  have hfront : front left (a :: (g ++ rest)) = (a :: g, rest) :=
    front_countdown (List.cons_ne_nil a g) hgroup rest
  refine ⟨a :: g, groups', rfl, congrArg Prod.fst hfront, ?_⟩
  rw [hfront]
  exact (show Framed left ((a :: g) :: groups') ((a :: g) ++ (rest ++ later)) by
    simpa using h).drop_one

end Framed

end Framing
end UnixNetwork
