import Mathlib.Data.Finset.Card
import UnixNetwork.Bytes.Block
import UnixNetwork.Multiplex.Descriptors
import UnixNetwork.Transition.System

/-!
# The server for TCP and UDP

`udp_echo_server/udp_tcp_select_server.cpp` has three branches that look at the same set of
ready descriptors, one after the other: `accept` if the listening socket is in it, then a
scan that does `Read` on every descriptor in it, and `recvfrom` if the UDP socket is in it.
The scan does not leave out the two service sockets.

`Read` on the listening socket fails, and the scan closes what fails.  `Read` on the UDP
socket takes the datagram that was reported, so that `recvfrom` waits for the next one; and
the result is zero if the datagram is empty, upon which the scan closes the socket.

`round` is one round of the loop.  It gives no state when the loop is left.  An `fd_set` is a
set of descriptors below `FD_SETSIZE`: those that the kernel gives out are assumed to be, as
`FD_SET` does not check, and then `old_set` never leaves its bits (`watched_of_reachable`).
-/

namespace UnixNetwork
namespace UdpTcpSelect

open Bytes Multiplex

/-- `BUFFER_SIZE`, and the size of `buffer`. -/
def bufferSize : ℕ := 1500

/-- `read` on a socket that is not connected. -/
abbrev ENOTCONN : ℕ := 107

/-- A datagram on its way to the UDP socket. -/
structure Datagram where
  payload : List UInt8
  sender : Address

/-- The local variables of `main`, and the descriptors in use. -/
structure State where
  listenFd : Fd
  udpFd : Fd
  oldSet : Finset Fd
  maxfd : Fd
  opened : Finset Fd

/-- What the system calls of one round give.  The datagrams are those that arrive from the
beginning of the round on, in order.  Uninitialised and foreign memory is part of it too. -/
structure Kernel where
  /-- `select` fails, or leaves these descriptors in `r_set`. -/
  select : Option (Finset Fd)
  accept : Fd
  read : Fd → ReadResult bufferSize
  datagrams : ℕ → Datagram
  udpBuffer : Block UInt8 bufferSize
  behind : List UInt8

namespace State

/-- A client is accepted. -/
def adopt (s : State) (connFd : Fd) : State :=
  { s with
    oldSet := insert connFd s.oldSet
    maxfd := if s.maxfd < connFd then connFd else s.maxfd
    opened := insert connFd s.opened }

/-- `close(i); FD_CLR(i, &old_set);` -/
def drop (s : State) (i : Fd) : State :=
  { s with oldSet := s.oldSet.erase i, opened := s.opened.erase i }

end State

/-- The result of `read` on the UDP socket, with this datagram the next one. -/
def ReadResult.ofDatagram (d : Datagram) : ReadResult bufferSize :=
  if h : d.payload = [] then .eof
  else
    .data (d.payload.take bufferSize)
      (fun hnil => h ((List.take_eq_nil_iff.mp hnil).resolve_left (by decide)))
      (List.length_take_le _ _)

/-- `Read(i, buffer, sizeof(buffer))`, after some datagrams have been taken. -/
def readOf (s : State) (k : Kernel) (i : Fd) (taken : ℕ) : ReadResult bufferSize × ℕ :=
  if i = s.listenFd then (.fail ENOTCONN, taken)
  else if i = s.udpFd then (ReadResult.ofDatagram (k.datagrams taken), taken + 1)
  else (k.read i, taken)

namespace State

/-- What the scan does with a descriptor, by the result of `Read`. -/
def handle (s : State) (behind : List UInt8) (i : Fd) : ReadResult bufferSize → State × List Action
  | .fail _ => (s.drop i, [.read i, .close i])
  | .eof => (s.drop i, [.read i, .close i])
  | .data bytes _ hlen =>
    (s, [.read i, .write i (ascii "server data : " ++
      stringOf ((Block.zero bufferSize).storeFront bytes hlen).toList behind)])

/-- The loop over the descriptors, from some one on. -/
def scan (k : Kernel) (rSet : Finset Fd) : List Fd → ℕ → State → (State × ℕ) × List Action
  | [], taken, s => ((s, taken), [])
  | i :: rest, taken, s =>
    if i ∈ rSet then
      let r := readOf s k i taken
      let h := s.handle k.behind i r.1
      ((scan k rSet rest r.2 h.1).1, h.2 ++ (scan k rSet rest r.2 h.1).2)
    else scan k rSet rest taken s

/-- The descriptors `0` to `maxfd`. -/
def indices (s : State) : List Fd := (List.range (s.maxfd + 1).toNat).map fun i : ℕ => (i : ℤ)

/-- The UDP branch.  It fails if the socket is closed by now. -/
def answer (s : State) (k : Kernel) (taken : ℕ) : Option State × List Action :=
  if s.udpFd ∈ s.opened then
    let d := k.datagrams taken
    let buffer := k.udpBuffer.storeFront (d.payload.take bufferSize) (List.length_take_le _ _)
    (some s, [.recvfrom s.udpFd d.sender,
      .sendto s.udpFd (ascii "server date : " ++ stringOf buffer.toList k.behind) d.sender])
  else (none, [])

/-- The scan and the UDP branch. -/
def serve (s : State) (k : Kernel) (rSet : Finset Fd) : Option State × List Action :=
  let r := scan k rSet s.indices 0 s
  if s.udpFd ∈ rSet then
    ((r.1.1.answer k r.1.2).1, r.2 ++ (r.1.1.answer k r.1.2).2)
  else (some r.1.1, r.2)

/-- One round of the loop of `main`. -/
def round (s : State) (k : Kernel) : Option State × List Action :=
  match k.select with
  | none => (none, [])
  | some rSet =>
    let n := rSet.card
    if n = 0 then (some s, [])
    else if s.listenFd ∈ rSet then
      if n - 1 = 0 then (some (s.adopt k.accept), [])
      else (s.adopt k.accept).serve k rSet
    else s.serve k rSet

/-- `main`, up to its loop. -/
def start (listenFd udpFd : Fd) (others : Finset Fd) : State where
  listenFd := listenFd
  udpFd := udpFd
  oldSet := {listenFd, udpFd}
  maxfd := max listenFd udpFd
  opened := insert listenFd (insert udpFd others)

end State

/-! ## The transition system -/

/-- `select` leaves some of the descriptors it was given, and `accept` returns one below
`FD_SETSIZE` that is not in use. -/
structure Kernel.Sound (s : State) (k : Kernel) : Prop where
  select : ∀ rSet, k.select = some rSet → rSet ⊆ s.oldSet
  nonneg : 0 ≤ k.accept
  lt : k.accept < (fdSetSize : ℤ)
  opened : k.accept ∉ s.opened

/-- The server. -/
def server : TransitionSystem State Kernel where
  init := fun s => ∃ (listenFd udpFd : Fd) (others : Finset Fd),
    (0 ≤ listenFd ∧ listenFd < (fdSetSize : ℤ)) ∧ (0 ≤ udpFd ∧ udpFd < (fdSetSize : ℤ)) ∧
      listenFd ≠ udpFd ∧ s = State.start listenFd udpFd others
  step := fun s k s' => k.Sound s ∧ (s.round k).1 = some s'

/-! ## The service sockets -/

/-- The service sockets are open, and in `old_set`. -/
structure Services (s : State) : Prop where
  listenFd_opened : s.listenFd ∈ s.opened
  listenFd_watched : s.listenFd ∈ s.oldSet
  udpFd_opened : s.udpFd ∈ s.opened
  udpFd_watched : s.udpFd ∈ s.oldSet

/-- **A round that keeps them**: `Read` is called on neither, they stay open and watched unless
the loop is left, and a datagram that was reported is taken by `recvfrom` and answered to its
sender. -/
structure Keeps (s : State) (k : Kernel) : Prop where
  reads : ∀ fd ∈ reads (s.round k).2, fd ≠ s.listenFd ∧ fd ≠ s.udpFd
  services : ∀ s', (s.round k).1 = some s' → Services s'
  answered : ∀ rSet, k.select = some rSet → s.udpFd ∈ rSet →
    Action.recvfrom s.udpFd (k.datagrams 0).sender ∈ (s.round k).2 ∧
      ∃ bytes, Action.sendto s.udpFd bytes (k.datagrams 0).sender ∈ (s.round k).2

/-- The UDP socket is not reported, and the listening socket is reported alone. -/
def Fine (s : State) (k : Kernel) : Prop :=
  ∀ rSet, k.select = some rSet → s.udpFd ∉ rSet ∧ (s.listenFd ∈ rSet → rSet = {s.listenFd})

/-- **The invariant**, as long as the rounds are fine. -/
structure Inv (s : State) : Prop where
  services : Services s
  ne : s.listenFd ≠ s.udpFd
  listenFd_range : 0 ≤ s.listenFd ∧ s.listenFd ≤ s.maxfd
  udpFd_range : 0 ≤ s.udpFd ∧ s.udpFd ≤ s.maxfd

variable {s : State} {k : Kernel}

theorem inv_start {listenFd udpFd : Fd} (others : Finset Fd) (hl : 0 ≤ listenFd) (hu : 0 ≤ udpFd)
    (hne : listenFd ≠ udpFd) : Inv (State.start listenFd udpFd others) := by
  refine ⟨⟨?_, ?_, ?_, ?_⟩, hne, ⟨hl, le_max_left _ _⟩, ⟨hu, le_max_right _ _⟩⟩
  · exact Finset.mem_insert_self _ _
  · exact Finset.mem_insert_self _ _
  · exact Finset.mem_insert_of_mem (Finset.mem_insert_self _ _)
  · exact Finset.mem_insert_of_mem (Finset.mem_singleton_self _)

theorem Services.adopt (h : Services s) (connFd : Fd) : Services (s.adopt connFd) :=
  ⟨Finset.mem_insert_of_mem h.listenFd_opened, Finset.mem_insert_of_mem h.listenFd_watched,
    Finset.mem_insert_of_mem h.udpFd_opened, Finset.mem_insert_of_mem h.udpFd_watched⟩

theorem Inv.adopt (h : Inv s) (connFd : Fd) : Inv (s.adopt connFd) :=
  ⟨h.services.adopt connFd, h.ne,
    ⟨h.listenFd_range.1, h.listenFd_range.2.trans (le_greater s.maxfd connFd).1⟩,
    ⟨h.udpFd_range.1, h.udpFd_range.2.trans (le_greater s.maxfd connFd).1⟩⟩

/-- A descriptor that is neither of the two is closed. -/
theorem Inv.drop (h : Inv s) {i : Fd} (hl : i ≠ s.listenFd) (hu : i ≠ s.udpFd) : Inv (s.drop i) :=
  ⟨⟨Finset.mem_erase.mpr ⟨hl.symm, h.services.listenFd_opened⟩,
    Finset.mem_erase.mpr ⟨hl.symm, h.services.listenFd_watched⟩,
    Finset.mem_erase.mpr ⟨hu.symm, h.services.udpFd_opened⟩,
    Finset.mem_erase.mpr ⟨hu.symm, h.services.udpFd_watched⟩⟩,
    h.ne, h.listenFd_range, h.udpFd_range⟩

/-! ## The scan -/

theorem reads_handle (s : State) (behind : List UInt8) (i : Fd) (r : ReadResult bufferSize) :
    reads (s.handle behind i r).2 = [i] := by
  cases r <;> rfl

theorem handle_services (s : State) (behind : List UInt8) (i : Fd) (r : ReadResult bufferSize) :
    (s.handle behind i r).1.listenFd = s.listenFd ∧ (s.handle behind i r).1.udpFd = s.udpFd := by
  cases r <;> exact ⟨rfl, rfl⟩

theorem Inv.handle (h : Inv s) (behind : List UInt8) {i : Fd} (hl : i ≠ s.listenFd)
    (hu : i ≠ s.udpFd) (r : ReadResult bufferSize) : Inv (s.handle behind i r).1 := by
  cases r with
  | fail _ => exact h.drop hl hu
  | eof => exact h.drop hl hu
  | data _ _ _ => exact h

variable {rSet : Finset Fd}

theorem mem_indices {fd : Fd} : fd ∈ s.indices ↔ 0 ≤ fd ∧ fd ≤ s.maxfd := by
  have hlt : fd ≤ s.maxfd ↔ fd < s.maxfd + 1 := Int.lt_add_one_iff.symm
  rw [State.indices, List.mem_map, hlt]
  constructor
  · rintro ⟨i, hi, rfl⟩
    exact ⟨Int.natCast_nonneg i, Int.lt_toNat.mp (List.mem_range.mp hi)⟩
  · rintro ⟨hpos, hlt⟩
    lift fd to ℕ using hpos
    exact ⟨fd, List.mem_range.mpr (Int.lt_toNat.mpr hlt), rfl⟩

/-- **The scan** reads what is in `r_set`, whatever that is. -/
theorem reads_scan (s : State) (k : Kernel) (rSet : Finset Fd) (l : List Fd) (taken : ℕ) :
    reads (State.scan k rSet l taken s).2 = l.filter fun i => decide (i ∈ rSet) := by
  induction l generalizing taken s with
  | nil => rfl
  | cons i l ih =>
    rw [State.scan]
    by_cases hi : i ∈ rSet
    · have hcons : (i :: l).filter (fun i => decide (i ∈ rSet)) =
          i :: l.filter fun i => decide (i ∈ rSet) := List.filter_cons_of_pos (decide_eq_true hi)
      rw [if_pos hi, hcons]
      dsimp only
      rw [reads_append, reads_handle, ih, List.singleton_append]
    · have hcons : (i :: l).filter (fun i => decide (i ∈ rSet)) =
          l.filter fun i => decide (i ∈ rSet) :=
        List.filter_cons_of_neg fun h => hi (of_decide_eq_true h)
      rw [if_neg hi, hcons]
      exact ih s taken

/-- If the service sockets are not in it, they are kept. -/
theorem Inv.scan (h : Inv s) (hl : s.listenFd ∉ rSet) (hu : s.udpFd ∉ rSet) (l : List Fd)
    (taken : ℕ) : Inv (State.scan k rSet l taken s).1.1 := by
  induction l generalizing taken s with
  | nil => exact h
  | cons i l ih =>
    rw [State.scan]
    by_cases hi : i ∈ rSet
    · have hne : i ≠ s.listenFd ∧ i ≠ s.udpFd := by
        constructor
        · rintro rfl
          exact hl hi
        · rintro rfl
          exact hu hi
      obtain ⟨hl', hu'⟩ := handle_services s k.behind i (readOf s k i taken).1
      rw [if_pos hi]
      refine ih (h.handle k.behind hne.1 hne.2 _) ?_ ?_ _
      · rw [hl']
        exact hl
      · rw [hu']
        exact hu
    · rw [if_neg hi]
      exact ih h hl hu taken

/-! ## One round -/

theorem reads_answer (s : State) (k : Kernel) (taken : ℕ) : reads (s.answer k taken).2 = [] := by
  unfold State.answer
  split <;> rfl

/-- The scan and the UDP branch read what is in `r_set`. -/
theorem mem_reads_serve {fd : Fd} :
    fd ∈ reads (s.serve k rSet).2 ↔ (0 ≤ fd ∧ fd ≤ s.maxfd) ∧ fd ∈ rSet := by
  have hreads : reads (s.serve k rSet).2 = s.indices.filter fun i => decide (i ∈ rSet) := by
    unfold State.serve
    dsimp only
    split
    · dsimp only
      rw [reads_append, reads_answer, List.append_nil, reads_scan]
    · exact reads_scan s k rSet _ _
  rw [hreads, List.mem_filter, decide_eq_true_iff, mem_indices]

/-- **The ways through the loop body**, if `select` does not fail. -/
theorem round_cases (h : k.select = some rSet) :
    rSet = ∅ ∧ s.round k = (some s, []) ∨
      rSet = {s.listenFd} ∧ s.round k = (some (s.adopt k.accept), []) ∨
        rSet ≠ {s.listenFd} ∧
          ∃ s', (s' = s ∨ s' = s.adopt k.accept) ∧ s.round k = s'.serve k rSet := by
  rw [State.round, h]
  dsimp only
  by_cases hempty : rSet.card = 0
  · exact Or.inl ⟨Finset.card_eq_zero.mp hempty, if_pos hempty⟩
  · rw [if_neg hempty]
    by_cases hlisten : s.listenFd ∈ rSet
    · rw [if_pos hlisten]
      by_cases hone : rSet.card - 1 = 0
      · obtain ⟨fd, hfd⟩ := Finset.card_eq_one.mp (by omega : rSet.card = 1)
        have heq : s.listenFd = fd := Finset.mem_singleton.mp (hfd ▸ hlisten)
        exact Or.inr (Or.inl ⟨heq ▸ hfd, if_pos hone⟩)
      · refine Or.inr (Or.inr ⟨?_, s.adopt k.accept, Or.inr rfl, if_neg hone⟩)
        rintro rfl
        exact hone rfl
    · refine Or.inr (Or.inr ⟨?_, s, Or.inl rfl, if_neg hlisten⟩)
      rintro rfl
      exact hlisten (Finset.mem_singleton_self _)

namespace Inv

theorem serve (h : Inv s) (hl : s.listenFd ∉ rSet) (hu : s.udpFd ∉ rSet) :
    ∃ s', (s.serve k rSet).1 = some s' ∧ Inv s' := by
  refine ⟨(State.scan k rSet s.indices 0 s).1.1, ?_, h.scan hl hu _ _⟩
  unfold State.serve
  dsimp only
  rw [if_neg hu]

/-- A fine round keeps the invariant, and the loop goes on unless `select` fails. -/
theorem round (h : Inv s) (hfine : Fine s k) {s' : State} (hs' : (s.round k).1 = some s') :
    Inv s' := by
  rcases hselect : k.select with _ | rSet
  · rw [State.round, hselect] at hs'
    cases hs'
  · obtain ⟨hu, hl⟩ := hfine rSet hselect
    obtain ⟨-, hround⟩ | ⟨-, hround⟩ | ⟨hne, t, ht, hround⟩ := round_cases (s := s) hselect
    · rw [hround] at hs'
      exact Option.some.inj hs' ▸ h
    · rw [hround] at hs'
      exact Option.some.inj hs' ▸ h.adopt k.accept
    · have hl' : s.listenFd ∉ rSet := fun hmem => hne (hl hmem)
      obtain ⟨t', ht', hinv⟩ : ∃ t', (t.serve k rSet).1 = some t' ∧ Inv t' := by
        rcases ht with rfl | rfl
        · exact h.serve hl' hu
        · exact (h.adopt k.accept).serve hl' hu
      rw [hround, ht'] at hs'
      exact Option.some.inj hs' ▸ hinv

/-- What the scan reads in a round, if there is one. -/
theorem mem_reads_round (h : Inv s) (hselect : k.select = some rSet) (hne : rSet ≠ {s.listenFd})
    {fd : Fd} (hfd : fd = s.listenFd ∨ fd = s.udpFd) :
    fd ∈ reads (s.round k).2 ↔ fd ∈ rSet := by
  obtain ⟨hempty, hround⟩ | ⟨hone, -⟩ | ⟨-, t, ht, hround⟩ := round_cases (s := s) hselect
  · rw [hround, hempty]
    exact iff_of_false List.not_mem_nil (Finset.notMem_empty fd)
  · exact absurd hone hne
  · have hrange : 0 ≤ fd ∧ fd ≤ t.maxfd := by
      have hle : s.maxfd ≤ t.maxfd := by
        rcases ht with rfl | rfl
        · exact le_rfl
        · exact (le_greater s.maxfd k.accept).1
      rcases hfd with rfl | rfl
      · exact ⟨h.listenFd_range.1, h.listenFd_range.2.trans hle⟩
      · exact ⟨h.udpFd_range.1, h.udpFd_range.2.trans hle⟩
    rw [hround, mem_reads_serve, and_iff_right hrange]

/-- **One round.** -/
theorem keeps_iff (h : Inv s) : Keeps s k ↔ Fine s k := by
  constructor
  · intro hkeeps rSet hselect
    have hlisten : s.listenFd ∈ rSet → rSet = {s.listenFd} := by
      intro hmem
      by_contra hne
      have hread := (h.mem_reads_round hselect hne (Or.inl rfl)).mpr hmem
      exact (hkeeps.reads _ hread).1 rfl
    refine ⟨fun hmem => ?_, hlisten⟩
    have hne : rSet ≠ {s.listenFd} := by
      rintro rfl
      exact h.ne (Finset.mem_singleton.mp hmem).symm
    have hread := (h.mem_reads_round hselect hne (Or.inr rfl)).mpr hmem
    exact (hkeeps.reads _ hread).2 rfl
  · intro hfine
    refine ⟨fun fd hfd => ?_, fun s' hs' => (h.round hfine hs').services, ?_⟩
    · rcases hselect : k.select with _ | rSet
      · rw [State.round, hselect] at hfd
        cases hfd
      · obtain ⟨hu, hl⟩ := hfine rSet hselect
        by_cases hone : rSet = {s.listenFd}
        · obtain ⟨-, hround⟩ | ⟨-, hround⟩ | ⟨hne, -⟩ := round_cases (s := s) hselect
          · rw [hround] at hfd
            cases hfd
          · rw [hround] at hfd
            cases hfd
          · exact absurd hone hne
        · constructor
          · rintro rfl
            exact hone (hl ((h.mem_reads_round hselect hone (Or.inl rfl)).mp hfd))
          · rintro rfl
            exact hu ((h.mem_reads_round hselect hone (Or.inr rfl)).mp hfd)
    · intro rSet hselect hmem
      exact absurd hmem (hfine rSet hselect).1

end Inv

/-! ## Runs -/

/-- The scan only takes descriptors out of `old_set`. -/
theorem oldSet_scan_subset (s : State) (k : Kernel) (rSet : Finset Fd) (l : List Fd) (taken : ℕ) :
    (State.scan k rSet l taken s).1.1.oldSet ⊆ s.oldSet := by
  induction l generalizing taken s with
  | nil => exact Finset.Subset.refl _
  | cons i l ih =>
    rw [State.scan]
    by_cases hi : i ∈ rSet
    · rw [if_pos hi]
      refine (ih _ _).trans ?_
      cases (readOf s k i taken).1 with
      | fail _ => exact Finset.erase_subset _ _
      | eof => exact Finset.erase_subset _ _
      | data _ _ _ => exact Finset.Subset.refl _
    · rw [if_neg hi]
      exact ih s taken

theorem oldSet_serve_subset {s' : State} (h : (s.serve k rSet).1 = some s') :
    s'.oldSet ⊆ s.oldSet := by
  have hscan := oldSet_scan_subset s k rSet s.indices 0
  unfold State.serve at h
  dsimp only at h
  split at h
  · dsimp only at h
    unfold State.answer at h
    split at h
    · exact Option.some.inj h ▸ hscan
    · cases h
  · exact Option.some.inj h ▸ hscan

/-- A round puts at most the accepted client into `old_set`. -/
theorem oldSet_round_subset {s' : State} (h : (s.round k).1 = some s') :
    s'.oldSet ⊆ insert k.accept s.oldSet := by
  have hold : s.oldSet ⊆ insert k.accept s.oldSet := Finset.subset_insert _ _
  rcases hselect : k.select with _ | rSet
  · rw [State.round, hselect] at h
    cases h
  · obtain ⟨-, hround⟩ | ⟨-, hround⟩ | ⟨-, t, rfl | rfl, hround⟩ := round_cases (s := s) hselect <;>
      rw [hround] at h
    · exact Option.some.inj h ▸ hold
    · exact Option.some.inj h ▸ Finset.Subset.refl _
    · exact (oldSet_serve_subset h).trans hold
    · exact oldSet_serve_subset h

/-- What is watched always has a bit in an `fd_set`. -/
theorem watched_of_reachable (h : server.Reachable s) :
    ∀ fd ∈ s.oldSet, 0 ≤ fd ∧ fd < (fdSetSize : ℤ) := by
  refine h.invariant (P := fun s => ∀ fd ∈ s.oldSet, 0 ≤ fd ∧ fd < (fdSetSize : ℤ)) ?_ ?_
  · rintro s ⟨listenFd, udpFd, others, hl, hu, -, rfl⟩ fd hfd
    rcases Finset.mem_insert.mp hfd with rfl | hfd
    · exact hl
    · exact Finset.mem_singleton.mp hfd ▸ hu
  · rintro s k s' hs ⟨hsound, hround⟩ fd hfd
    rcases Finset.mem_insert.mp (oldSet_round_subset hround hfd) with rfl | hfd
    · exact ⟨hsound.nonneg, hsound.lt⟩
    · exact hs fd hfd

/-- In every run of fine rounds. -/
theorem inv_of_reachable (h : (server.restrict fun s k _ => Fine s k).Reachable s) : Inv s := by
  refine h.invariant (P := Inv) ?_ ?_
  · rintro s ⟨listenFd, udpFd, others, hl, hu, hne, rfl⟩
    exact inv_start others hl.1 hu.1 hne
  · rintro s k s' hs ⟨⟨-, hround⟩, hfine⟩
    exact hs.round hfine hround

/-- **How long the service sockets are kept.**  In every run in which `select` never reports
the UDP socket, and the listening socket only alone, both are open and watched in every
state; and the next round keeps them exactly if it is of this kind. -/
theorem keeps_services (h : (server.restrict fun s k _ => Fine s k).Reachable s) :
    Services s ∧ ∀ k, Keeps s k ↔ Fine s k :=
  ⟨(inv_of_reachable h).services, fun _ => (inv_of_reachable h).keeps_iff⟩

/-- `select` reports this set; clients have nothing to say, and datagrams are empty. -/
def quiet (rSet : Finset Fd) : Kernel :=
  ⟨some rSet, 5, fun _ => .eof, fun _ => ⟨[], (0, 0)⟩, Block.zero bufferSize, []⟩

theorem sound_quiet {rSet : Finset Fd} (h : rSet ⊆ {3, 4}) :
    (quiet rSet).Sound (State.start 3 4 {0, 1, 2}) := by
  have hnonneg : (0 : Fd) ≤ 5 := by decide
  have hlt : (5 : Fd) < (fdSetSize : ℤ) := by decide
  have hopened : (5 : Fd) ∉ (State.start 3 4 {0, 1, 2}).opened := by decide
  refine ⟨fun rSet' hrSet => ?_, hnonneg, hlt, hopened⟩
  rw [← Option.some.inj hrSet]
  exact h

/-- The one client disconnects. -/
theorem keeps_services_one : ∃ s, s.oldSet = {5, 3, 4} ∧ Services s ∧ Keeps s (quiet {5}) := by
  have hstart : (server.restrict fun s k _ => Fine s k).Reachable (State.start 3 4 {0, 1, 2}) :=
    .init ⟨3, 4, {0, 1, 2}, by decide, by decide, by decide, rfl⟩
  have hfine : Fine (State.start 3 4 {0, 1, 2}) (quiet {3}) := by
    intro rSet hrSet
    cases hrSet
    exact ⟨by decide, fun _ => rfl⟩
  have hround : ((State.start 3 4 {0, 1, 2}).round (quiet {3})).1 =
      some ((State.start 3 4 {0, 1, 2}).adopt 5) := rfl
  have haccept := hstart.step (l := quiet {3}) ⟨⟨sound_quiet (by decide), hround⟩, hfine⟩
  refine ⟨_, rfl, (keeps_services haccept).1, ((keeps_services haccept).2 _).mpr ?_⟩
  intro rSet hrSet
  cases hrSet
  exact ⟨by decide, fun hmem => absurd hmem (by decide)⟩

/-- The first datagram is read by the scan. -/
theorem not_keeps_datagram : ∃ s k, server.Reachable s ∧ Kernel.Sound s k ∧ ¬ Keeps s k := by
  have hinit : server.init (State.start 3 4 {0, 1, 2}) :=
    ⟨3, 4, {0, 1, 2}, by decide, by decide, by decide, rfl⟩
  refine ⟨_, quiet {4}, .init hinit, sound_quiet (by decide), fun hkeeps => ?_⟩
  have hinv : Inv (State.start 3 4 {0, 1, 2}) := inv_start _ (by decide) (by decide) (by decide)
  exact (hinv.keeps_iff.mp hkeeps {4} rfl).1 (by decide)

end UdpTcpSelect
end UnixNetwork
