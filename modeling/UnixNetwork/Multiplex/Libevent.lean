import Mathlib.Data.Fin.Tuple.Basic
import UnixNetwork.Bytes.Block
import UnixNetwork.Multiplex.Descriptors
import UnixNetwork.Tables.Slots
import UnixNetwork.Transition.System

/-!
# The server on top of libevent

`libevent_study/libevent_tcp_server.cpp`.  Each client has an event of its own, and the
events are kept in an array `evs` with a counter: a new one is pushed, and when a client
leaves, the last one is popped and unregistered --- whosever it is.

The base is the set of events registered in it, and it calls back for any of these.  Events
are numbered in the order in which they are made.  Descriptors of clients are never closed.
A callback that leaves the array, or deletes a null pointer, is not a step.

If the client that leaves is always the newest, the array is a stack of the clients, and
`Inv` holds.  In any other case the event of a client that stays is unregistered, and that of
the client that has left is not.
-/

namespace UnixNetwork
namespace Libevent

open Bytes Multiplex

/-- The size of `evs`. -/
def evsSize : ℕ := 1024

/-- `ReadBufferSize`. -/
def readBufferSize : ℕ := 1500

/-- The global variables, what libevent holds, and the descriptors in use. -/
structure State where
  /-- The descriptors of the events made so far, which are numbered from `0` on. -/
  fdOf : ℕ → Fd
  made : ℕ
  evs : Fin evsSize → Option ℕ
  count : ℤ
  /-- The events of clients that are registered in the base. -/
  registered : Finset ℕ
  opened : Finset Fd
  /-- The clients that have connected and whose `Read` has not returned zero or an error. -/
  clients : Finset Fd

/-- An index of `evs`. -/
def index (j : ℤ) : Option (Fin evsSize) :=
  if h : 0 ≤ j ∧ j < (evsSize : ℤ) then some ⟨j.toNat, by omega⟩ else none

namespace State

/-- `lfd_callback`, once `Accept` has returned a descriptor. -/
def lfdCallback (s : State) (clientFd : Fd) : Option State :=
  (index s.count).map fun i =>
    { s with
      fdOf := Function.update s.fdOf s.made clientFd
      made := s.made + 1
      evs := Function.update s.evs i (some s.made)
      count := s.count + 1
      registered := insert s.made s.registered
      opened := insert clientFd s.opened
      clients := insert clientFd s.clients }

/-- `event_del(evs[--(*count_ev)])`. -/
def eventDel (s : State) : Option State :=
  (index (s.count - 1)).bind fun i =>
    (s.evs i).map fun ev => { s with count := s.count - 1, registered := s.registered.erase ev }

/-- `cfd_callback`, by the result of `Read`, and given what lies behind `buffer`. -/
def cfdCallback (s : State) (clientFd : Fd) (behind : List UInt8) :
    ReadResult readBufferSize → Option (State × List Action)
  | .data bytes _ hlen =>
    let buffer := (Block.zero readBufferSize).storeFront bytes hlen
    some (s, [.read clientFd,
      .write clientFd (ascii "server data : " ++ stringOf buffer.toList behind)])
  | .eof => s.eventDel.map fun s' =>
    ({ s' with clients := s'.clients.erase clientFd }, [.read clientFd])
  | .fail _ => s.eventDel.map fun s' =>
    ({ s' with clients := s'.clients.erase clientFd }, [.read clientFd])

/-- `main`, up to `event_base_dispatch`. -/
def start (opened : Finset Fd) : State where
  fdOf := fun _ => 0
  made := 0
  evs := fun _ => none
  count := 0
  registered := ∅
  opened := opened
  clients := ∅

end State

/-! ## The transition system -/

/-- What happens next: a client connects, or the base calls back for an event. -/
inductive Label where
  | connect (clientFd : Fd)
  | ready (ev : ℕ) (r : ReadResult readBufferSize) (behind : List UInt8)

/-- One callback: `accept` returns a descriptor that is not in use, and the base calls back for
registered events only. -/
inductive Step (s : State) : Label → State → Prop
  | connect {clientFd : Fd} {s' : State} : 0 ≤ clientFd → clientFd ∉ s.opened →
      s.lfdCallback clientFd = some s' → Step s (.connect clientFd) s'
  | ready {ev : ℕ} {r : ReadResult readBufferSize} {behind : List UInt8} {s' : State}
      {log : List Action} : ev ∈ s.registered →
      s.cfdCallback (s.fdOf ev) behind r = some (s', log) → Step s (.ready ev r behind) s'

/-- The server. -/
def server : TransitionSystem State Label where
  init := fun s => ∃ opened, s = State.start opened
  step := fun s l s' => Step s l s'

/-! ## The array as a stack -/

/-- The array up to the counter. -/
def live (s : State) : Fin evsSize → Option ℕ := Slots.upTo s.evs s.count

/-- **What the array is for.**  The registered clients are those that are still there, and the
array holds exactly their events up to the counter, each once. -/
structure Keeps (s : State) : Prop where
  registered : ∀ fd, (∃ ev ∈ s.registered, s.fdOf ev = fd) ↔ fd ∈ s.clients
  events : ∀ ev, (∃ i, live s i = some ev) ↔ ev < s.made ∧ s.fdOf ev ∈ s.clients
  once : ∀ i j ev, live s i = some ev → live s j = some ev → i = j

/-- The client leaves. -/
def Leaves : ReadResult readBufferSize → Prop
  | .data _ _ _ => False
  | .eof => True
  | .fail _ => True

/-- The client that leaves, if one does, is the newest of those that are registered. -/
def NewestLeaves (s : State) : Label → Prop
  | .connect _ => True
  | .ready ev r _ => Leaves r → ∀ ev' ∈ s.registered, ev' ≤ ev

/-- The array is a stack of the registered events. -/
structure Stack (s : State) : Prop where
  count_range : 0 ≤ s.count ∧ s.count ≤ (evsSize : ℤ)
  holds : Slots.Holds (live s) s.registered
  used : ∀ i : Fin evsSize, ((i : ℕ) : ℤ) < s.count → s.evs i ≠ none
  sorted : ∀ i j ev ev', live s i = some ev → live s j = some ev' → i < j → ev < ev'

/-- The registered events are those of the clients that are still there. -/
structure Events (s : State) : Prop where
  made : ∀ ev ∈ s.registered, ev < s.made
  fdOf_inj : ∀ ev ev', ev < s.made → ev' < s.made → s.fdOf ev = s.fdOf ev' → ev = ev'
  opened : ∀ ev, ev < s.made → s.fdOf ev ∈ s.opened
  clients : ∀ ev, ev < s.made → (s.fdOf ev ∈ s.clients ↔ ev ∈ s.registered)
  exists_event : ∀ fd ∈ s.clients, ∃ ev ∈ s.registered, s.fdOf ev = fd

/-- **The invariant**, as long as it is the newest that leaves. -/
structure Inv (s : State) : Prop where
  stack : Stack s
  events : Events s

variable {s : State}

theorem index_eq_some {j : ℤ} {i : Fin evsSize} : index j = some i ↔ j = ((i : ℕ) : ℤ) := by
  unfold index
  split
  · rename_i h
    rw [Option.some.injEq, Fin.ext_iff]
    show j.toNat = i.val ↔ j = (i.val : ℤ)
    omega
  · rename_i h
    have hi := i.isLt
    constructor
    · intro hnone
      cases hnone
    · intro hj
      omega

/-- The array has room exactly if the counter is below its size. -/
theorem exists_index {j : ℤ} (h0 : 0 ≤ j) (hlt : j < (evsSize : ℤ)) : ∃ i, index j = some i :=
  ⟨_, dif_pos ⟨h0, hlt⟩⟩

theorem live_eq_some {i : Fin evsSize} {ev : ℕ} :
    live s i = some ev ↔ ((i : ℕ) : ℤ) < s.count ∧ s.evs i = some ev := Slots.upTo_eq_some

theorem Inv.keeps (h : Inv s) : Keeps s := by
  refine ⟨fun fd => ?_, fun ev => ?_, h.stack.holds.inj⟩
  · constructor
    · rintro ⟨ev, hev, rfl⟩
      exact (h.events.clients ev (h.events.made ev hev)).mpr hev
    · exact h.events.exists_event fd
  · rw [← h.stack.holds.mem_iff]
    constructor
    · intro hev
      have hlt := h.events.made ev hev
      exact ⟨hlt, (h.events.clients ev hlt).mpr hev⟩
    · rintro ⟨hlt, hmem⟩
      exact (h.events.clients ev hlt).mp hmem

theorem inv_start (opened : Finset Fd) : Inv (State.start opened) := by
  have hlive : live (State.start opened) = fun _ => none := Slots.upTo_of_nonpos le_rfl
  refine ⟨⟨⟨le_rfl, Int.natCast_nonneg _⟩, ?_, ?_, ?_⟩, ⟨?_, ?_, ?_, ?_, ?_⟩⟩
  · rw [hlive]
    exact Slots.Holds.empty
  · intro i hi
    exact absurd hi (not_lt.mpr (Int.natCast_nonneg _))
  · intro i j ev ev' hi
    rw [hlive] at hi
    cases hi
  · intro ev hev
    exact absurd hev (Finset.notMem_empty ev)
  · intro ev ev' hev
    exact absurd hev (Nat.not_lt_zero ev)
  · intro ev hev
    exact absurd hev (Nat.not_lt_zero ev)
  · intro ev hev
    exact absurd hev (Nat.not_lt_zero ev)
  · intro fd hfd
    exact absurd hfd (Finset.notMem_empty fd)

/-! ## A client connects -/

namespace State

/-- An event is made and pushed. -/
def push (s : State) (i : Fin evsSize) (clientFd : Fd) : State :=
  { s with
    fdOf := Function.update s.fdOf s.made clientFd
    made := s.made + 1
    evs := Function.update s.evs i (some s.made)
    count := s.count + 1
    registered := insert s.made s.registered
    opened := insert clientFd s.opened
    clients := insert clientFd s.clients }

theorem lfdCallback_eq {s : State} {i : Fin evsSize} (hi : s.count = ((i : ℕ) : ℤ)) (clientFd : Fd) :
    s.lfdCallback clientFd = some (s.push i clientFd) := by
  rw [lfdCallback, index_eq_some.mpr hi]
  rfl

theorem of_lfdCallback_eq_some {s s' : State} {clientFd : Fd}
    (h : s.lfdCallback clientFd = some s') :
    ∃ i : Fin evsSize, s.count = ((i : ℕ) : ℤ) ∧ s' = s.push i clientFd := by
  obtain ⟨i, hi, rfl⟩ := Option.map_eq_some_iff.mp h
  exact ⟨i, index_eq_some.mp hi, rfl⟩

end State

theorem live_push {i : Fin evsSize} (hi : s.count = ((i : ℕ) : ℤ)) (clientFd : Fd) :
    live (s.push i clientFd) = Function.update (live s) i (some s.made) := Slots.upTo_push hi s.made

theorem Stack.push (h : Stack s) (hmade : ∀ ev ∈ s.registered, ev < s.made) {i : Fin evsSize}
    (hi : s.count = ((i : ℕ) : ℤ)) (clientFd : Fd) : Stack (s.push i clientFd) := by
  have hlt : ((i : ℕ) : ℤ) < (evsSize : ℤ) := Int.ofNat_lt.mpr i.isLt
  have hfree : live s i = none := Slots.upTo_eq_none_of_le hi.le
  refine ⟨⟨Int.le_add_one h.count_range.1, ?_⟩, ?_, ?_, ?_⟩
  · show s.count + 1 ≤ (evsSize : ℤ)
    omega
  · rw [live_push hi]
    exact h.holds.insert hfree fun hmem => lt_irrefl _ (hmade _ hmem)
  · intro j hj
    show Function.update s.evs i (some s.made) j ≠ none
    by_cases hji : j = i
    · rw [hji, Function.update_self]
      exact Option.some_ne_none _
    · have hval : (j : ℕ) ≠ i := fun heq => hji (Fin.ext heq)
      have hj' : ((j : ℕ) : ℤ) < s.count + 1 := hj
      rw [Function.update_of_ne hji]
      exact h.used j (by omega)
  · intro j k ev ev' hev hev' hjk
    rw [live_push hi] at hev hev'
    have hval : (j : ℕ) < k := hjk
    have hji : j ≠ i := by
      -- there is nothing behind the new one
      rintro rfl
      rw [Function.update_of_ne hjk.ne', live_eq_some] at hev'
      omega
    rw [Function.update_of_ne hji] at hev
    by_cases hki : k = i
    · rw [hki, Function.update_self, Option.some.injEq] at hev'
      exact hev' ▸ hmade ev (h.holds.mem hev)
    · rw [Function.update_of_ne hki] at hev'
      exact h.sorted j k ev ev' hev hev' hjk

theorem Events.push (h : Events s) (i : Fin evsSize) {clientFd : Fd} (hnew : clientFd ∉ s.opened) :
    Events (s.push i clientFd) := by
  have hself : (s.push i clientFd).fdOf s.made = clientFd := Function.update_self _ _ _
  have hold : ∀ ev, ev < s.made → (s.push i clientFd).fdOf ev = s.fdOf ev :=
    fun ev hev => Function.update_of_ne hev.ne _ _
  have hne : ∀ ev, ev < s.made → s.fdOf ev ≠ clientFd := by
    rintro ev hev rfl
    exact hnew (h.opened ev hev)
  have hcases : ∀ ev, ev < (s.push i clientFd).made → ev = s.made ∨ ev < s.made :=
    fun ev hev => (Nat.lt_succ_iff_lt_or_eq.mp hev).symm
  refine ⟨?_, ?_, ?_, ?_, ?_⟩
  · intro ev hev
    rcases Finset.mem_insert.mp hev with rfl | hev
    · exact Nat.lt_succ_self _
    · exact (h.made ev hev).trans (Nat.lt_succ_self _)
  · intro ev ev' hev hev' heq
    rcases hcases ev hev with rfl | hev
    · rcases hcases ev' hev' with rfl | hev'
      · rfl
      · rw [hself, hold ev' hev'] at heq
        exact absurd heq.symm (hne ev' hev')
    · rcases hcases ev' hev' with rfl | hev'
      · rw [hself, hold ev hev] at heq
        exact absurd heq (hne ev hev)
      · rw [hold ev hev, hold ev' hev'] at heq
        exact h.fdOf_inj ev ev' hev hev' heq
  · intro ev hev
    rcases hcases ev hev with rfl | hev
    · rw [hself]
      exact Finset.mem_insert_self _ _
    · rw [hold ev hev]
      exact Finset.mem_insert_of_mem (h.opened ev hev)
  · intro ev hev
    rcases hcases ev hev with rfl | hev
    · rw [hself]
      exact iff_of_true (Finset.mem_insert_self _ _) (Finset.mem_insert_self _ _)
    · rw [hold ev hev]
      show s.fdOf ev ∈ insert clientFd s.clients ↔ ev ∈ insert s.made s.registered
      rw [Finset.mem_insert, Finset.mem_insert, or_iff_right (hne ev hev), or_iff_right hev.ne]
      exact h.clients ev hev
  · intro fd hfd
    rcases Finset.mem_insert.mp hfd with rfl | hfd
    · exact ⟨s.made, Finset.mem_insert_self _ _, hself⟩
    · obtain ⟨ev, hev, hfd⟩ := h.exists_event fd hfd
      exact ⟨ev, Finset.mem_insert_of_mem hev, (hold ev (h.made ev hev)).trans hfd⟩

/-! ## A client leaves -/

namespace State

/-- The last event is popped and unregistered, and a client is gone. -/
def pop (s : State) (ev : ℕ) (clientFd : Fd) : State :=
  { s with
    count := s.count - 1
    registered := s.registered.erase ev
    clients := s.clients.erase clientFd }

end State

/-- The last event of the array is the newest of those that are registered. -/
theorem Stack.exists_newest (h : Stack s) {ev : ℕ} (hev : ev ∈ s.registered) :
    ∃ i : Fin evsSize, ∃ newest, s.count - 1 = ((i : ℕ) : ℤ) ∧ live s i = some newest ∧
      newest ∈ s.registered ∧ ∀ ev' ∈ s.registered, ev' ≤ newest := by
  obtain ⟨j, hj⟩ := (h.holds.mem_iff ev).mp hev
  obtain ⟨hlt, -⟩ := live_eq_some.mp hj
  obtain ⟨i, hi⟩ := exists_index (j := s.count - 1) (by omega) (by have := h.count_range.2; omega)
  have hcount := index_eq_some.mp hi
  obtain ⟨newest, hnewest⟩ := Option.ne_none_iff_exists'.mp (h.used i (by omega))
  have hlive : live s i = some newest := live_eq_some.mpr ⟨by omega, hnewest⟩
  refine ⟨i, newest, hcount, hlive, h.holds.mem hlive, fun ev' hev' => ?_⟩
  obtain ⟨k, hk⟩ := (h.holds.mem_iff ev').mp hev'
  obtain ⟨hklt, -⟩ := live_eq_some.mp hk
  have hle : (k : ℕ) ≤ i := by omega
  rcases hle.lt_or_eq with hlt' | heq
  · exact (h.sorted k i ev' newest hk hlive hlt').le
  · rw [Fin.ext heq, hlive] at hk
    exact (Option.some.inj hk).ge

/-- So it is the one that is unregistered. -/
theorem Stack.cfdCallback_eq (h : Stack s) {ev : ℕ} (hev : ev ∈ s.registered) (clientFd : Fd)
    (behind : List UInt8) {r : ReadResult readBufferSize} (hr : Leaves r) :
    ∃ newest, newest ∈ s.registered ∧ (∀ ev' ∈ s.registered, ev' ≤ newest) ∧
      s.cfdCallback clientFd behind r = some (s.pop newest clientFd, [.read clientFd]) := by
  obtain ⟨i, newest, hi, hlive, hmem, hnewest⟩ := h.exists_newest hev
  have hdel : s.eventDel =
      some { s with count := s.count - 1, registered := s.registered.erase newest } := by
    rw [State.eventDel, index_eq_some.mpr hi, Option.bind_some, (live_eq_some.mp hlive).2]
    rfl
  refine ⟨newest, hmem, hnewest, ?_⟩
  cases r with
  | data _ _ _ => exact hr.elim
  | eof =>
    rw [State.cfdCallback, hdel]
    rfl
  | fail errno =>
    rw [State.cfdCallback, hdel]
    rfl

theorem Stack.pop (h : Stack s) {i : Fin evsSize} (hi : s.count - 1 = ((i : ℕ) : ℤ)) {ev : ℕ}
    (hlive : live s i = some ev) (clientFd : Fd) : Stack (s.pop ev clientFd) := by
  have hpop : live (s.pop ev clientFd) = Function.update (live s) i none := Slots.upTo_pop hi
  have hold : ∀ j ev', live (s.pop ev clientFd) j = some ev' → live s j = some ev' := by
    intro j ev' hj
    rw [hpop] at hj
    by_cases hji : j = i
    · rw [hji, Function.update_self] at hj
      cases hj
    · rwa [Function.update_of_ne hji] at hj
  refine ⟨⟨?_, ?_⟩, ?_, ?_, ?_⟩
  · show 0 ≤ s.count - 1
    omega
  · exact (Int.sub_le_self s.count zero_le_one).trans h.count_range.2
  · rw [hpop]
    exact h.holds.erase hlive
  · intro j hj
    have hj' : ((j : ℕ) : ℤ) < s.count - 1 := hj
    exact h.used j (by omega)
  · intro j k ev₁ ev₂ h₁ h₂
    exact h.sorted j k ev₁ ev₂ (hold j ev₁ h₁) (hold k ev₂ h₂)

theorem Events.pop (h : Events s) {ev : ℕ} (hev : ev ∈ s.registered) :
    Events (s.pop ev (s.fdOf ev)) := by
  refine ⟨?_, h.fdOf_inj, h.opened, ?_, ?_⟩
  · intro ev' hev'
    exact h.made ev' (Finset.mem_of_mem_erase hev')
  · intro ev' hlt
    show s.fdOf ev' ∈ s.clients.erase (s.fdOf ev) ↔ ev' ∈ s.registered.erase ev
    have hne : s.fdOf ev' ≠ s.fdOf ev ↔ ev' ≠ ev := by
      constructor
      · rintro hfd rfl
        exact hfd rfl
      · intro hne hfd
        exact hne (h.fdOf_inj ev' ev hlt (h.made ev hev) hfd)
    rw [Finset.mem_erase, Finset.mem_erase, hne, h.clients ev' hlt]
  · intro fd hfd
    obtain ⟨hne, hmem⟩ := Finset.mem_erase.mp hfd
    obtain ⟨ev', hev', rfl⟩ := h.exists_event fd hmem
    refine ⟨ev', Finset.mem_erase.mpr ⟨?_, hev'⟩, rfl⟩
    rintro rfl
    exact hne rfl

/-- If another event than the leaving client's is unregistered, the array is wrong. -/
theorem not_keeps_pop {ev newest : ℕ} (hev : ev ∈ s.registered) (hne : ev ≠ newest) :
    ¬ Keeps (s.pop newest (s.fdOf ev)) := by
  intro hkeeps
  have hmem : s.fdOf ev ∈ s.clients.erase (s.fdOf ev) :=
    (hkeeps.registered (s.fdOf ev)).mp ⟨ev, Finset.mem_erase.mpr ⟨hne, hev⟩, rfl⟩
  exact Finset.notMem_erase _ _ hmem

/-! ## Runs -/

/-- **One step** from a state with the invariant keeps it exactly if the newest leaves. -/
theorem Inv.step (h : Inv s) {l : Label} {s' : State} (hstep : Step s l s') :
    NewestLeaves s l ∧ Inv s' ∨ ¬ NewestLeaves s l ∧ ¬ Keeps s' := by
  cases hstep with
  | connect _ hnew hs' =>
    obtain ⟨i, hi, rfl⟩ := State.of_lfdCallback_eq_some hs'
    exact Or.inl ⟨trivial, h.stack.push h.events.made hi _, h.events.push i hnew⟩
  | @ready ev r behind s' log hev hs' =>
    by_cases hr : Leaves r
    · obtain ⟨newest, hmem, hnewest, heq⟩ := h.stack.cfdCallback_eq hev (s.fdOf ev) behind hr
      obtain rfl : s.pop newest (s.fdOf ev) = s' :=
        congrArg Prod.fst (Option.some.inj (heq.symm.trans hs'))
      by_cases hne : ev = newest
      · subst hne
        obtain ⟨i, newest, hi, hlive, -, hle⟩ := h.stack.exists_newest hev
        obtain rfl : ev = newest :=
          le_antisymm (hle ev hev) (hnewest newest (h.stack.holds.mem hlive))
        exact Or.inl ⟨fun _ => hnewest, h.stack.pop hi hlive _, h.events.pop hev⟩
      · refine Or.inr ⟨fun hlast => ?_, not_keeps_pop hev hne⟩
        exact hne (le_antisymm (hnewest ev hev) (hlast hr newest hmem))
    · cases r with
      | data bytes _ _ =>
        obtain rfl : s = s' := congrArg Prod.fst (Option.some.inj hs')
        exact Or.inl ⟨fun hr' => absurd hr' hr, h⟩
      | eof => exact absurd trivial hr
      | fail _ => exact absurd trivial hr

/-- In every run in which it is always the newest client that leaves. -/
theorem inv_of_reachable (h : (server.restrict fun s l _ => NewestLeaves s l).Reachable s) :
    Inv s := by
  refine h.invariant (P := Inv) ?_ ?_
  · rintro s ⟨opened, rfl⟩
    exact inv_start opened
  · rintro s l s' hs ⟨hstep, hlast⟩
    rcases hs.step hstep with ⟨-, hs'⟩ | ⟨hnot, -⟩
    · exact hs'
    · exact absurd hlast hnot

/-- **How long the right client is unregistered.**  In every run in which it is always the newest
client that leaves, the registered clients are those that are still there and the array has
their events; and the first time another one leaves, they are not. -/
theorem unregisters_leaver (h : (server.restrict fun s l _ => NewestLeaves s l).Reachable s) :
    Keeps s ∧ ∀ l s', server.step s l s' → (Keeps s' ↔ NewestLeaves s l) := by
  have hinv := inv_of_reachable h
  refine ⟨hinv.keeps, fun l s' hstep => ?_⟩
  rcases hinv.step hstep with ⟨hlast, hs'⟩ | ⟨hnot, hlost⟩
  · exact iff_of_true hs'.keeps hlast
  · exact iff_of_false hlost hnot

/-- A client connects. -/
theorem reachable_push (h : (server.restrict fun s l _ => NewestLeaves s l).Reachable s)
    {i : Fin evsSize} (hi : s.count = ((i : ℕ) : ℤ)) {clientFd : Fd} (h0 : 0 ≤ clientFd)
    (hnew : clientFd ∉ s.opened) :
    (server.restrict fun s l _ => NewestLeaves s l).Reachable (s.push i clientFd) := by
  have hstep : Step s (.connect clientFd) (s.push i clientFd) :=
    .connect h0 hnew (State.lfdCallback_eq hi clientFd)
  exact h.step ⟨hstep, trivial⟩

/-- Two clients connect. -/
def twoClients : State := ((State.start {3}).push ⟨0, by decide⟩ 4).push ⟨1, by decide⟩ 5

theorem reachable_twoClients :
    (server.restrict fun s l _ => NewestLeaves s l).Reachable twoClients :=
  reachable_push (reachable_push (.init ⟨{3}, rfl⟩) rfl (by decide) (by decide)) rfl (by decide)
    (by decide)

/-- One of them leaves. -/
theorem step_leave (ev : ℕ) (hev : ev ∈ twoClients.registered) :
    ∃ newest, server.step twoClients (.ready ev .eof []) (twoClients.pop newest (twoClients.fdOf ev)) ∧
      newest ∈ twoClients.registered ∧ ∀ ev' ∈ twoClients.registered, ev' ≤ newest := by
  have hinv := inv_of_reachable reachable_twoClients
  obtain ⟨newest, hmem, hnewest, heq⟩ :=
    hinv.stack.cfdCallback_eq hev (twoClients.fdOf ev) [] (r := .eof) trivial
  exact ⟨newest, .ready hev heq, hmem, hnewest⟩

/-- The second one leaves. -/
theorem unregisters_leaver_second : ∃ s, s.clients = {4} ∧ Keeps s := by
  obtain ⟨newest, hstep, -, -⟩ := step_leave 1 (by decide)
  have hlast : NewestLeaves twoClients (.ready 1 .eof []) := fun _ => by decide
  exact ⟨_, rfl, (unregisters_leaver (reachable_twoClients.step ⟨hstep, hlast⟩)).1⟩

/-- The first one leaves, and the second one is unregistered. -/
theorem not_keeps_first : ∃ s, server.Reachable s ∧ s.clients = {5} ∧ ¬ Keeps s := by
  obtain ⟨newest, hstep, -, hnewest⟩ := step_leave 0 (by decide)
  have hone : 1 ≤ newest := hnewest 1 (by decide)
  refine ⟨_, reachable_twoClients.of_restrict.step hstep, rfl, ?_⟩
  exact not_keeps_pop (by decide) (by omega)

end Libevent
end UnixNetwork
