import Mathlib.Algebra.BigOperators.Group.List.Basic
import Mathlib.Algebra.Order.Group.Int
import UnixNetwork.Bytes.Split

/-!
# Paths that stay below where they start

A path is read lexically, without looking at a file system: its components are
what lies between the slashes, an empty component and `.` stay where they are,
`..` goes up, and any other name goes down.  A path is `Confined` if it is
relative and on no beginning of it there are more steps up than steps down.

`scan` decides this in one pass over the bytes, with a depth and what is known
about the component being read as its only state; `scan_iff` is its correctness.
A program that receives its path byte by byte, say behind a decoder, can run it
without keeping the path.
-/

namespace UnixNetwork
namespace LexicalPath

/-- The slash. -/
def slash : UInt8 := 47

/-- The full stop. -/
def dot : UInt8 := 46

/-- A component that names something below. -/
def Ordinary (component : List UInt8) : Prop :=
  component ≠ [] ∧ component ≠ [dot] ∧ component ≠ [dot, dot]

instance : DecidablePred Ordinary := fun _ => inferInstanceAs (Decidable (_ ∧ _ ∧ _))

/-- The components of a path. -/
def components (path : List UInt8) : List (List UInt8) := path.splitOn slash

/-- A relative path that never climbs above where it starts. -/
def Confined (path : List UInt8) : Prop :=
  path.head? ≠ some slash ∧
    ∀ p, p <+: components path → p.count [dot, dot] ≤ p.countP (decide <| Ordinary ·)

/-! ## One pass -/

/-- What the component being read is so far. -/
inductive Seg where
  | empty
  | dot
  | dotdot
  | name
  deriving DecidableEq

namespace Seg

/-- One more byte of the component. -/
def push (seg : Seg) (c : UInt8) : Seg :=
  if c = LexicalPath.dot then
    match seg with
    | .empty => .dot
    | .dot => .dotdot
    | _ => .name
  else .name

/-- How far down the component leads. -/
def weight : Seg → ℤ
  | .dotdot => -1
  | .name => 1
  | _ => 0

/-- What a whole component is. -/
def of (component : List UInt8) : Seg := component.foldl push .empty

end Seg

/-- The pass, from a component begun at some depth on. -/
def scan : List UInt8 → Seg → ℤ → Bool
  | [], seg, depth => decide (0 ≤ depth + seg.weight)
  | c :: path, seg, depth =>
    if c = slash then
      decide (0 ≤ depth + seg.weight) && scan path .empty (depth + seg.weight)
    else scan path (seg.push c) depth

/-! ## Components -/

theorem foldl_push_name (l : List UInt8) : l.foldl Seg.push .name = .name := by
  induction l with
  | nil => rfl
  | cons c l ih =>
    have : Seg.push .name c = .name := by
      unfold Seg.push
      split <;> rfl
    rw [List.foldl_cons, this, ih]

/-- The pass tells the four kinds of components apart. -/
theorem weight_of (component : List UInt8) :
    (Seg.of component).weight =
      (if Ordinary component then 1 else 0) - (if component = [dot, dot] then 1 else 0) := by
  unfold Seg.of
  match component with
  | [] => rfl
  | [a] =>
    by_cases ha : a = dot
    · subst ha
      rfl
    · have hord : Ordinary [a] := ⟨by simp, by simpa using ha, by simp⟩
      rw [if_pos hord, if_neg (by simp)]
      simp [Seg.push, ha, Seg.weight]
  | [a, b] =>
    by_cases ha : a = dot
    · subst ha
      by_cases hb : b = dot
      · subst hb
        rfl
      · have hord : Ordinary [dot, b] := ⟨by simp, by simp, by simpa using hb⟩
        rw [if_pos hord, if_neg (by simpa using hb)]
        simp [Seg.push, hb, Seg.weight]
    · have hord : Ordinary [a, b] := ⟨by simp, by simp, by simp [ha]⟩
      rw [if_pos hord, if_neg (by simp [ha])]
      simp [Seg.push, ha, Seg.weight]
  | a :: b :: c :: rest =>
    have hord : Ordinary (a :: b :: c :: rest) := ⟨by simp, by simp, by simp⟩
    have hname : ((Seg.push .empty a).push b).push c = .name := by
      by_cases ha : a = dot <;> by_cases hb : b = dot <;> simp [Seg.push, ha, hb]
    rw [if_pos hord, if_neg (by simp), List.foldl_cons, List.foldl_cons, List.foldl_cons, hname,
      foldl_push_name]
    rfl

/-- The depth a list of components leads to. -/
def depth (p : List (List UInt8)) : ℤ := (p.map fun c => (Seg.of c).weight).sum

theorem depth_eq (p : List (List UInt8)) :
    depth p = p.countP (decide <| Ordinary ·) - p.count [dot, dot] := by
  induction p with
  | nil => rfl
  | cons c p ih =>
    have hcons : depth (c :: p) = (Seg.of c).weight + depth p := by
      rw [depth, List.map_cons, List.sum_cons]
      rfl
    rw [hcons, ih, weight_of, List.countP_cons, List.count_cons]
    simp only [decide_eq_true_eq, beq_iff_eq]
    split <;> split <;> push_cast <;> omega

/-- The pass, on a component read so far and the rest of a path: no beginning of
the components leads below zero.  Induction on the rest; a slash closes the
component, any other byte belongs to it. -/
theorem scan_eq_true_iff (path read : List UInt8) (hread : slash ∉ read) (d : ℤ) (hd : 0 ≤ d) :
    scan path (Seg.of read) d = true ↔
      ∀ p, p <+: components (read ++ path) → 0 ≤ d + depth p := by
  induction path generalizing read d with
  | nil =>
    have hcomp : components (read ++ []) = [read] := by
      rw [List.append_nil, components, List.splitOn_eq_singleton hread]
    rw [scan, decide_eq_true_eq, hcomp]
    constructor
    · intro h p hp
      rcases List.prefix_cons_iff.mp hp with rfl | ⟨t, rfl, ht⟩
      · simpa [depth] using hd
      · rw [List.prefix_nil.mp ht]
        simpa [depth] using h
    · intro h
      simpa [depth] using h [read] (List.prefix_refl _)
  | cons c path ih =>
    rw [scan]
    by_cases hc : c = slash
    · have hcomp : components (read ++ c :: path) = read :: components path := by
        rw [hc, components, List.splitOn_append_cons_self_of_not_mem hread]
        rfl
      rw [if_pos hc, Bool.and_eq_true, decide_eq_true_eq, hcomp]
      have hdepth : ∀ p, depth (read :: p) = (Seg.of read).weight + depth p := by
        intro p
        rw [depth, List.map_cons, List.sum_cons]
        rfl
      constructor
      · rintro ⟨hclose, hrest⟩ p hp
        rcases List.prefix_cons_iff.mp hp with rfl | ⟨t, rfl, ht⟩
        · simpa [depth] using hd
        · have := (ih [] List.not_mem_nil _ hclose).mp hrest t ht
          rw [hdepth]
          omega
      · intro h
        have hclose : 0 ≤ d + (Seg.of read).weight := by
          have := h [read] (List.prefix_cons_inj read |>.mpr List.nil_prefix)
          simpa [depth] using this
        refine ⟨hclose, (ih [] List.not_mem_nil _ hclose).mpr ?_⟩
        intro p hp
        have := h (read :: p) (List.prefix_cons_inj read |>.mpr hp)
        rw [hdepth] at this
        omega
    · have hpush : (Seg.of read).push c = Seg.of (read ++ [c]) := by
        rw [Seg.of, Seg.of, List.foldl_append]
        rfl
      have hread' : slash ∉ read ++ [c] := by
        rw [List.mem_append, List.mem_singleton, not_or]
        exact ⟨hread, fun h => hc h.symm⟩
      rw [if_neg hc, hpush, ih (read ++ [c]) hread' d hd, List.append_assoc, List.singleton_append]

/-- **The pass is right.** -/
theorem scan_iff (path : List UInt8) :
    Confined path ↔ path.head? ≠ some slash ∧ scan path .empty 0 = true := by
  have h := scan_eq_true_iff path [] List.not_mem_nil 0 le_rfl
  rw [List.nil_append] at h
  refine and_congr_right fun _ => Iff.trans ?_ h.symm
  refine forall_congr' fun p => imp_congr_right fun _ => ?_
  rw [depth_eq]
  omega

end LexicalPath
end UnixNetwork
