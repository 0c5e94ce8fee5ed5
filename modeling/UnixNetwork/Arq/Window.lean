import UnixNetwork.Arq.Serial
import Mathlib.Data.List.Forall2
import Mathlib.Data.List.Pairwise
import Mathlib.Data.List.Basic

/-!
# Windows of numbered things

The buffers of a sliding-window protocol are lists of things that carry serial
numbers.  Such a list is a *window* from `lo` to `hi` when its numbers are those of
indices in that stretch, in increasing order, and each thing is what its index says
it is (`P`).  Both ends of a protocol keep such a list: the sender what is not yet
acknowledged, the receiver what arrived out of order.

A window survives the operations of both ends: dropping from it, taking its head
off, appending the next index (`concat`), putting a newcomer where it belongs
(`insert`), and changing what is not its number (`forall₂`).  Since indices of a short
stretch are near, the serial number of a member determines its index (`at_index`).
-/

namespace UnixNetwork
namespace Serial

variable {w : ℕ} {α : Type*} {key : α → BitVec w} {P : ℕ → α → Prop} {lo hi : ℕ} {l : List α}

/-- The numbers of `l` are those of indices from `lo` to below `hi`, in increasing order, and
what has index `i` satisfies `P i`. -/
structure Window (key : α → BitVec w) (P : ℕ → α → Prop) (lo hi : ℕ) (l : List α) : Prop where
  /-- The stretch is short enough for its serial numbers to be ordered. -/
  short : 2 * hi ≤ 2 * lo + 2 ^ w
  index : ∀ a ∈ l, ∃ i, lo ≤ i ∧ i < hi ∧ key a = BitVec.ofNat w i ∧ P i a
  sorted : l.Pairwise fun a b => 0 < diff (key b) (key a)

/-- Consecutive things, from the index `lo` on. -/
def Stretch (P : ℕ → α → Prop) (lo : ℕ) (l : List α) : Prop := ∀ k a, l[k]? = some a → P (lo + k) a

theorem Stretch.nil : Stretch P lo [] := by
  intro k a ha
  simp at ha

/-- Consecutive things of a list, up to `f`, are what is between two places of it. -/
theorem Stretch.map_append_drop {β : Type*} {f : α → β} {whole : List β}
    (h : Stretch (fun i a => whole[i]? = some (f a)) lo l) :
    l.map f ++ whole.drop (lo + l.length) = whole.drop lo := by
  induction l generalizing lo with
  | nil => rfl
  | cons a l ih =>
    obtain ⟨hlo, hget⟩ := List.getElem?_eq_some_iff.mp (show whole[lo]? = some (f a) from h 0 a rfl)
    have hrest := @ih (lo + 1) (fun k b hb => by
      have := h (k + 1) b hb
      rwa [← Nat.add_assoc, Nat.add_right_comm] at this)
    rw [List.drop_eq_getElem_cons hlo, List.map_cons, List.cons_append, ← hrest, List.length_cons,
      Nat.add_assoc, Nat.add_comm 1]
    exact congrArg (· :: _) hget.symm

namespace Window

theorem nil (short : 2 * hi ≤ 2 * lo + 2 ^ w) : Window key P lo hi [] where
  short := short
  index := fun _ ha => absurd ha List.not_mem_nil
  sorted := List.Pairwise.nil

theorem sublist {l' : List α} (h : Window key P lo hi l) (hsub : List.Sublist l' l) :
    Window key P lo hi l' where
  short := h.short
  index := fun a ha => h.index a (hsub.subset ha)
  sorted := h.sorted.sublist hsub

/-- A window of a shorter stretch is one of the whole, and what the indices say may be
weakened. -/
theorem mono {lo' hi' : ℕ} {P' : ℕ → α → Prop} (h : Window key P lo hi l) (hlo : lo' ≤ lo)
    (hhi : hi ≤ hi') (short : 2 * hi' ≤ 2 * lo' + 2 ^ w)
    (hP : ∀ i a, lo ≤ i → i < hi → P i a → P' i a) : Window key P' lo' hi' l where
  short := short
  index := by
    intro a ha
    obtain ⟨i, hi₁, hi₂, hkey, hPi⟩ := h.index a ha
    exact ⟨i, hlo.trans hi₁, hi₂.trans_le hhi, hkey, hP i a hi₁ hi₂ hPi⟩
  sorted := h.sorted

/-- Near every index of the stretch, a serial number has one index. -/
theorem near (h : Window key P lo hi l) {i j : ℕ} (hi₁ : lo ≤ i) (hi₂ : i < hi) (hj₁ : lo ≤ j)
    (hj₂ : j < hi) : Near w i j :=
  near_of_mem h.short hi₁ hi₂ hj₁ hj₂

/-- The number of a member determines what it is. -/
theorem at_index (h : Window key P lo hi l) {a : α} (ha : a ∈ l) {i : ℕ} (hi₁ : lo ≤ i)
    (hi₂ : i < hi) (hkey : key a = BitVec.ofNat w i) : P i a := by
  obtain ⟨j, hj₁, hj₂, hkey', hP⟩ := h.index a ha
  have hij : i = j := eq_of_ofNat_eq (h.near hi₁ hi₂ hj₁ hj₂) (hkey.symm.trans hkey')
  rwa [hij]

/-- The order of a window is that of the indices. -/
theorem lt_of_mem_tail {a b : α} {l : List α} (h : Window key P lo hi (a :: l)) (hb : b ∈ l)
    {i j : ℕ} (hi₁ : lo ≤ i) (hi₂ : i < hi) (ha : key a = BitVec.ofNat w i) (hj₁ : lo ≤ j)
    (hj₂ : j < hi) (hkey : key b = BitVec.ofNat w j) : i < j := by
  have hpos := (List.pairwise_cons.mp h.sorted).1 b hb
  rw [ha, hkey] at hpos
  exact (diff_pos_iff (h.near hj₁ hj₂ hi₁ hi₂)).mp hpos

/-- **Taking the head off**: the rest begins behind it. -/
theorem tail {a : α} {l : List α} (h : Window key P lo hi (a :: l)) {i : ℕ} (hi₁ : lo ≤ i)
    (hi₂ : i < hi) (ha : key a = BitVec.ofNat w i) : Window key P (i + 1) hi l where
  short := by
    have := h.short
    omega
  index := by
    intro b hb
    obtain ⟨j, hj₁, hj₂, hkey, hP⟩ := h.index b (List.mem_cons_of_mem a hb)
    exact ⟨j, h.lt_of_mem_tail hb hi₁ hi₂ ha hj₁ hj₂ hkey, hj₂, hkey, hP⟩
  sorted := (List.pairwise_cons.mp h.sorted).2

/-- **Taking the first ones off**, when they are the first indices of the stretch. -/
theorem drop (h : Window key P lo hi l) {n : ℕ} (hn : n ≤ l.length)
    (hkeys : ∀ k a, (l.take n)[k]? = some a → key a = BitVec.ofNat w (lo + k)) :
    Window key P (lo + n) hi (l.drop n) ∧ Stretch P lo (l.take n) := by
  induction n generalizing lo l with
  | zero => exact ⟨h, Stretch.nil⟩
  | succ n ih =>
    cases l with
    | nil => exact absurd hn (by simp)
    | cons a l =>
      have ha : key a = BitVec.ofNat w lo := hkeys 0 a rfl
      obtain ⟨i, hi₁, hi₂, -, -⟩ := h.index a List.mem_cons_self
      have hlo : lo < hi := hi₁.trans_lt hi₂
      obtain ⟨hrest, htaken⟩ := ih (h.tail le_rfl hlo ha) (Nat.le_of_succ_le_succ hn) (by
        intro k b hb
        rw [hkeys (k + 1) b hb, Nat.add_right_comm, Nat.add_assoc])
      refine ⟨by rwa [List.drop_succ_cons, Nat.add_comm n, ← Nat.add_assoc], ?_⟩
      intro k b hb
      cases k with
      | zero =>
        obtain rfl := Option.some.inj hb
        exact h.at_index List.mem_cons_self le_rfl hlo ha
      | succ k =>
        have hb' := htaken k b hb
        rwa [Nat.add_right_comm, Nat.add_assoc] at hb'

/-- **Appending the next index.** -/
theorem concat (h : Window key P lo hi l) {a : α} (hlo : lo ≤ hi)
    (short : 2 * (hi + 1) ≤ 2 * lo + 2 ^ w)
    (hkey : key a = BitVec.ofNat w hi) (hP : P hi a) : Window key P lo (hi + 1) (l ++ [a]) where
  short := short
  index := by
    intro b hb
    rcases List.mem_append.mp hb with hb | hb
    · obtain ⟨j, hj₁, hj₂, hj⟩ := h.index b hb
      exact ⟨j, hj₁, hj₂.trans (Nat.lt_succ_self hi), hj⟩
    · obtain rfl := List.mem_singleton.mp hb
      exact ⟨hi, hlo, Nat.lt_succ_self hi, hkey, hP⟩
  sorted := by
    refine List.pairwise_append.mpr ⟨h.sorted, List.pairwise_singleton _ _, ?_⟩
    intro b hb c hc
    obtain rfl := List.mem_singleton.mp hc
    obtain ⟨j, hj₁, hj₂, hkey', -⟩ := h.index b hb
    rw [hkey, hkey']
    exact (diff_pos_iff (near_of_mem short hlo (Nat.lt_succ_self hi) hj₁
      (hj₂.trans (Nat.lt_succ_self hi)))).mpr hj₂

/-- Appending the next indices. -/
theorem append (l' : List α) (h : Window key P lo hi l) (hlo : lo ≤ hi)
    (short : 2 * (hi + l'.length) ≤ 2 * lo + 2 ^ w)
    (hkeys : ∀ k a, l'[k]? = some a → key a = BitVec.ofNat w (hi + k)) (hP : Stretch P hi l') :
    Window key P lo (hi + l'.length) (l ++ l') := by
  induction l' generalizing l hi with
  | nil => simpa using h
  | cons a l' ih =>
    rw [List.length_cons] at short ⊢
    have hcons := h.concat hlo (by omega) (hkeys 0 a rfl) (hP 0 a rfl)
    have hrest := ih hcons (by omega) (by omega)
      (fun k b hb => by rw [hkeys (k + 1) b hb, Nat.add_assoc, Nat.add_comm 1])
      (fun k b hb => by
        have := hP (k + 1) b hb
        rwa [← Nat.add_assoc, Nat.add_right_comm] at this)
    rwa [List.append_assoc, List.singleton_append, Nat.add_assoc, Nat.add_comm 1] at hrest

/-- **Putting a newcomer where it belongs.** -/
theorem insert {pre post : List α} (h : Window key P lo hi (pre ++ post)) {a : α} {i : ℕ}
    (hi₁ : lo ≤ i) (hi₂ : i < hi) (hkey : key a = BitVec.ofNat w i) (hP : P i a)
    (hpre : ∀ b ∈ pre, 0 < diff (key a) (key b)) (hpost : ∀ b ∈ post, 0 < diff (key b) (key a)) :
    Window key P lo hi (pre ++ a :: post) where
  short := h.short
  index := by
    intro b hb
    rcases List.mem_append.mp hb with hb | hb
    · exact h.index b (List.mem_append_left post hb)
    rcases List.mem_cons.mp hb with rfl | hb
    · exact ⟨i, hi₁, hi₂, hkey, hP⟩
    · exact h.index b (List.mem_append_right pre hb)
  sorted := by
    obtain ⟨hsorted₁, hsorted₂, hcross⟩ := List.pairwise_append.mp h.sorted
    refine List.pairwise_append.mpr ⟨hsorted₁, List.pairwise_cons.mpr ⟨hpost, hsorted₂⟩, ?_⟩
    intro b hb c hc
    rcases List.mem_cons.mp hc with rfl | hc
    · exact hpre b hb
    · exact hcross b hb c hc

/-- Members before one that a number is ahead of, are behind that number too. -/
theorem diff_pos_of_mem {pre post : List α} {b : α} (h : Window key P lo hi (pre ++ b :: post))
    {i : ℕ} (hi₁ : lo ≤ i) (hi₂ : i < hi) (hb : 0 < diff (BitVec.ofNat w i) (key b)) {c : α}
    (hc : c ∈ pre) : 0 < diff (BitVec.ofNat w i) (key c) := by
  obtain ⟨j, hj₁, hj₂, hkeyb, -⟩ := h.index b (by simp)
  obtain ⟨k, hk₁, hk₂, hkeyc, -⟩ := h.index c (List.mem_append_left _ hc)
  have hcb : 0 < diff (key b) (key c) :=
    (List.pairwise_append.mp h.sorted).2.2 c hc b List.mem_cons_self
  rw [hkeyb, hkeyc, diff_pos_iff (h.near hj₁ hj₂ hk₁ hk₂)] at hcb
  rw [hkeyb, diff_pos_iff (h.near hi₁ hi₂ hj₁ hj₂)] at hb
  rw [hkeyc, diff_pos_iff (h.near hi₁ hi₂ hk₁ hk₂)]
  exact hcb.trans hb

/-- Changing what is not the number. -/
theorem forall₂ {P' : ℕ → α → Prop} {l' : List α} (h : Window key P lo hi l)
    (hl : List.Forall₂ (fun a b => key b = key a ∧ ∀ i, P i a → P' i b) l l') :
    Window key P' lo hi l' := by
  induction hl with
  | nil => exact nil h.short
  | @cons a b l l' hab hl ih =>
    obtain ⟨hsorted, -⟩ := List.pairwise_cons.mp h.sorted
    have hrest := ih (h.sublist (List.sublist_cons_self a l))
    refine ⟨h.short, ?_, List.pairwise_cons.mpr ⟨?_, hrest.sorted⟩⟩
    · intro c hc
      rcases List.mem_cons.mp hc with rfl | hc
      · obtain ⟨i, hi₁, hi₂, hkey, hP⟩ := h.index a List.mem_cons_self
        exact ⟨i, hi₁, hi₂, hab.1.trans hkey, hab.2 i hP⟩
      · exact hrest.index c hc
    · intro c hc
      obtain ⟨k, hk⟩ := List.mem_iff_getElem?.mp hc
      obtain ⟨hk', hget⟩ := List.getElem?_eq_some_iff.mp hk
      have hkl : k < l.length := by rwa [hl.length_eq]
      have hpair := hl.get hkl hk'
      rw [List.get_eq_getElem, List.get_eq_getElem, hget] at hpair
      rw [hab.1, hpair.1]
      exact hsorted _ (List.getElem_mem hkl)

/-- A window begins where its first member is. -/
theorem raise {a : α} (h : Window key P lo hi (a :: l)) {i : ℕ} (hi₁ : lo ≤ i) (hi₂ : i < hi)
    (ha : key a = BitVec.ofNat w i) : Window key P i hi (a :: l) where
  short := by
    have := h.short
    omega
  index := by
    intro b hb
    rcases List.mem_cons.mp hb with rfl | hb'
    · exact ⟨i, le_rfl, hi₂, ha, h.at_index hb hi₁ hi₂ ha⟩
    · obtain ⟨j, hj₁, hj₂, hj⟩ := (h.tail hi₁ hi₂ ha).index b hb'
      exact ⟨j, Nat.le_of_succ_le hj₁, hj₂, hj⟩
  sorted := h.sorted

/-- A window has no more members than its stretch has indices. -/
theorem length_le (h : Window key P lo hi l) (hlo : lo ≤ hi) : l.length ≤ hi - lo := by
  induction l generalizing lo with
  | nil => exact Nat.zero_le _
  | cons a l ih =>
    obtain ⟨i, hi₁, hi₂, hkey, -⟩ := h.index a List.mem_cons_self
    have hrest := ih (h.tail hi₁ hi₂ hkey) hi₂
    rw [List.length_cons]
    omega

end Window

end Serial
end UnixNetwork
