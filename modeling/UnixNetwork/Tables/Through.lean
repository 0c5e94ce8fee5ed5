import Mathlib.Data.List.Basic

/-!
# Lists cut off

A loop over a list that may end the program handles the elements up to the first one at which
it does: `through` is that part of the list.  It has every element exactly if the program can
only end at the last one.
-/

namespace UnixNetwork
namespace Through

variable {α : Type*} (p : α → Prop) [DecidablePred p]

/-- A list up to the first element with some property, and that one. -/
def through : List α → List α
  | [] => []
  | a :: l => if p a then [a] else a :: through l

theorem through_sublist (l : List α) : (through p l).Sublist l := by
  induction l with
  | nil => exact List.Sublist.refl _
  | cons b l ih =>
    rw [through]
    split
    · exact (List.nil_sublist l).cons_cons b
    · exact ih.cons_cons b

theorem mem_of_mem_through {l : List α} {a : α} (h : a ∈ through p l) : a ∈ l :=
  (through_sublist p l).subset h

/-- An element in front of the last one cuts something off. -/
theorem forall_mem_through_iff {l : List α} (hl : l.Nodup) :
    (∀ a ∈ l, a ∈ through p l) ↔ ∀ a ∈ l.dropLast, ¬ p a := by
  induction l with
  | nil => simp
  | cons a l ih =>
    obtain ⟨ha, hl⟩ := List.nodup_cons.mp hl
    rcases l with _ | ⟨b, l⟩
    · simp [through]
    · have hlast : (∀ c ∈ (a :: b :: l).dropLast, ¬ p c) ↔ ¬ p a ∧ ∀ c ∈ (b :: l).dropLast, ¬ p c := by
        rw [List.dropLast_cons_of_ne_nil (List.cons_ne_nil b l), List.forall_mem_cons]
      rw [hlast, through]
      by_cases hp : p a
      · rw [if_pos hp]
        have hb : b ∉ [a] := fun hb => ha (List.mem_singleton.mp hb ▸ List.mem_cons_self ..)
        constructor
        · intro h
          exact absurd (h b (by simp)) hb
        · exact fun h => absurd hp h.1
      · rw [if_neg hp, ← ih hl]
        constructor
        · intro h
          refine ⟨hp, fun c hc => ?_⟩
          refine (List.mem_cons.mp (h c (List.mem_cons_of_mem _ hc))).resolve_left ?_
          rintro rfl
          exact ha hc
        · rintro ⟨-, h⟩ c hc
          rcases List.mem_cons.mp hc with rfl | hc
          · exact List.mem_cons_self ..
          · exact List.mem_cons_of_mem _ (h c hc)

theorem through_append (l l' : List α) :
    through p (l ++ l') = if ∃ a ∈ l, p a then through p l else l ++ through p l' := by
  induction l with
  | nil => simp
  | cons a l ih =>
    rw [List.cons_append, through, through, ih]
    by_cases hp : p a
    · rw [if_pos hp, if_pos hp, if_pos ⟨a, List.mem_cons_self .., hp⟩]
    · have hiff : (∃ b ∈ a :: l, p b) ↔ ∃ b ∈ l, p b := by simp [hp]
      rw [if_neg hp, if_neg hp, if_congr hiff rfl rfl]
      split <;> rfl

section Exactly

variable {l : List α} {q : α → Prop}

/-- Only elements of the list are handled, so if they all have some property, so have those. -/
theorem forall_mem_through_and_iff (hl : l.Nodup) (hq : ∀ a ∈ l, q a) :
    ((∀ a ∈ l, a ∈ through p l) ∧ ∀ a ∈ through p l, q a) ↔ ∀ a ∈ l.dropLast, ¬ p a := by
  rw [and_iff_left fun a ha => hq a (mem_of_mem_through p ha), forall_mem_through_iff p hl]

/-- With one more element at the end that does not have the property, the program has to end
before it gets there. -/
theorem forall_mem_through_concat_and_iff (hl : l.Nodup) (hq : ∀ a ∈ l, q a) {b : α} (hb : ¬ q b) :
    ((∀ a ∈ l, a ∈ through p (l ++ [b])) ∧ ∀ a ∈ through p (l ++ [b]), q a) ↔
      (∀ a ∈ l.dropLast, ¬ p a) ∧ ∃ a ∈ l, p a := by
  rw [through_append]
  by_cases hends : ∃ a ∈ l, p a
  · rw [if_pos hends, and_iff_left hends]
    exact forall_mem_through_and_iff p hl hq
  · have hmem : b ∈ through p [b] := by
      unfold through
      split <;> exact List.mem_cons_self ..
    rw [if_neg hends]
    exact iff_of_false (fun h => hb (h.2 b (List.mem_append_right _ hmem))) fun h => hends h.2

end Exactly

end Through
end UnixNetwork
