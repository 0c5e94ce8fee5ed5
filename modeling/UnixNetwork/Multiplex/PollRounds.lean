import UnixNetwork.Multiplex.Poll
import UnixNetwork.Tables.Slots
import UnixNetwork.Tables.Through

/-!
# What one round of the `poll` server reads

Which entries the scan stops at is decided by `revents`.  For the entries that were given to
`poll` that is what it has reported; `Inv` says that each client has such an entry, and that
the entries behind `max_i` are free.  So the only other entry the scan can stop at is the one
a new client has just got, and only if it lies behind `max_i` (`readySlots_adopt`).

The scan reads what it stops at, up to the first `Read` that ends the program (`scan_reads`).
Together this decides which rounds serve the clients that were reported and no others:
`serves_iff` goes through the ways a round can take.
-/

namespace UnixNetwork
namespace Poll

open Bytes Multiplex Through

/-! ## The invariant -/

/-- The descriptors of the table. -/
def fds (s : State) : Fin openMax → Option Fd := fun i => slotKey (s.client i).fd

/-- **The invariant.** -/
structure Inv (s : State) : Prop where
  holds : Slots.Holds (fds s) (insert s.listenFd s.clients)
  listener : (s.client 0).fd = s.listenFd
  above : ∀ i, s.maxI < i → (s.client i).fd < 0
  listenFd_mem : s.listenFd ∈ s.others
  disjoint : ∀ fd ∈ s.clients, fd ∉ s.others

variable {s : State} {i : Fin openMax}

theorem inv_start {listenFd : Fd} {others : Finset Fd} (junk : Fin openMax → PollFd)
    (h0 : 0 ≤ listenFd) (hmem : listenFd ∈ others) : Inv (State.start listenFd others junk) := by
  have hfds : fds (State.start listenFd others junk) =
      Function.update (fun _ => none) 0 (some listenFd) := by
    funext i
    unfold fds State.start
    dsimp only
    by_cases hi : i = 0
    · rw [if_pos hi, hi, Function.update_self]
      exact slotKey_of_nonneg h0
    · rw [if_neg hi, Function.update_of_ne hi]
      exact slotKey_neg_one
  refine ⟨?_, ?_, ?_, hmem, ?_⟩
  · rw [hfds]
    exact Slots.Holds.empty.insert rfl (Finset.notMem_empty _)
  · exact congrArg PollFd.fd (if_pos rfl)
  · intro i hi
    have hne : i ≠ 0 := hi.ne'
    have hclient : (State.start listenFd others junk).client i = { junk i with fd := -1 } :=
      if_neg hne
    rw [hclient]
    exact Int.negSucc_lt_zero 0
  · intro fd hfd
    exact absurd hfd (Finset.notMem_empty fd)

namespace Inv

theorem poll (h : Inv s) (r : PollResult) : Inv (s.poll r) := by
  have hfds : fds (s.poll r) = fds s := by
    funext i
    rw [fds, fd_poll, fds]
  refine ⟨?_, ?_, ?_, h.listenFd_mem, h.disjoint⟩
  · rw [hfds]
    exact h.holds
  · rw [fd_poll]
    exact h.listener
  · intro i hi
    rw [fd_poll]
    exact h.above i hi

/-- A descriptor of the table is the listener's or a client's. -/
theorem fd_mem (h : Inv s) (hi : 0 ≤ (s.client i).fd) :
    (s.client i).fd ∈ insert s.listenFd s.clients :=
  h.holds.mem (slotKey_of_nonneg hi)

theorem fd_inj (h : Inv s) {j : Fin openMax} (hi : 0 ≤ (s.client i).fd)
    (hij : (s.client i).fd = (s.client j).fd) : i = j := by
  refine h.holds.inj i j (s.client i).fd (slotKey_of_nonneg hi) ?_
  rw [fds, ← hij]
  exact slotKey_of_nonneg hi

theorem listenFd_nonneg (h : Inv s) : 0 ≤ s.listenFd := by
  obtain ⟨i, hi⟩ := (h.holds.mem_iff s.listenFd).mp (Finset.mem_insert_self _ _)
  exact (slotKey_eq_some_iff.mp hi).2

/-- A client's entry. -/
theorem fd_mem_clients (h : Inv s) (hi : 0 ≤ (s.client i).fd) (h0 : i ≠ 0) :
    (s.client i).fd ∈ s.clients := by
  refine (Finset.mem_insert.mp (h.fd_mem hi)).resolve_left ?_
  intro heq
  exact h0 (h.fd_inj hi (heq.trans h.listener.symm))

/-- An entry in use has an index of at most `max_i`. -/
theorem le_maxI (h : Inv s) (hi : 0 ≤ (s.client i).fd) : i ≤ s.maxI := by
  by_contra hlt
  exact absurd (h.above i (not_le.mp hlt)) (not_lt.mpr hi)

/-- A new client. -/
theorem adopt (h : Inv s) (hi : (s.client i).fd < 0) {connFd : Fd} (hpos : 0 ≤ connFd)
    (hothers : connFd ∉ s.others) (hclients : connFd ∉ s.clients) : Inv (s.adopt i connFd) := by
  have hfds : fds (s.adopt i connFd) = Function.update (fds s) i (some connFd) := by
    funext j
    unfold fds State.adopt
    dsimp only
    by_cases hji : j = i
    · subst hji
      rw [Function.update_self, Function.update_self]
      exact slotKey_of_nonneg hpos
    · rw [Function.update_of_ne hji, Function.update_of_ne hji]
  have hnew : connFd ∉ insert s.listenFd s.clients := by
    rw [Finset.mem_insert, not_or]
    exact ⟨fun heq => hothers (heq ▸ h.listenFd_mem), hclients⟩
  refine ⟨?_, ?_, ?_, h.listenFd_mem, ?_⟩
  · show Slots.Holds (fds (s.adopt i connFd)) (insert s.listenFd (insert connFd s.clients))
    rw [hfds, Finset.insert_comm]
    exact h.holds.insert (slotKey_eq_none_iff.mpr hi) hnew
  · rw [client_adopt_of_ne]
    · exact h.listener
    · rintro rfl
      rw [h.listener] at hi
      exact absurd h.listenFd_nonneg (not_le.mpr hi)
  · intro j hj
    rw [maxI_adopt, max_lt_iff] at hj
    rw [client_adopt_of_ne s hj.2.ne']
    exact h.above j hj.1
  · intro fd hfd
    rcases Finset.mem_insert.mp hfd with rfl | hfd
    · exact hothers
    · exact h.disjoint fd hfd

/-- A client goes. -/
theorem release (h : Inv s) (hi : 0 ≤ (s.client i).fd) (h0 : i ≠ 0) : Inv (s.release i) := by
  have hfds : fds (s.release i) = Function.update (fds s) i none := by
    funext j
    unfold fds State.release
    dsimp only
    by_cases hji : j = i
    · subst hji
      rw [Function.update_self, Function.update_self]
      exact slotKey_neg_one
    · rw [Function.update_of_ne hji, Function.update_of_ne hji]
  have hmem := h.fd_mem_clients hi h0
  have hne : s.listenFd ≠ (s.client i).fd := by
    intro heq
    exact h.disjoint _ hmem (heq ▸ h.listenFd_mem)
  have hothers : s.others.erase (s.client i).fd = s.others :=
    Finset.erase_eq_of_notMem (h.disjoint _ hmem)
  refine ⟨?_, ?_, ?_, ?_, ?_⟩
  · show Slots.Holds (fds (s.release i)) (insert s.listenFd (s.clients.erase (s.client i).fd))
    rw [hfds, ← Finset.erase_insert_of_ne hne]
    exact h.holds.erase (slotKey_of_nonneg hi)
  · rw [client_release_of_ne s h0.symm]
    exact h.listener
  · intro j hj
    by_cases hji : j = i
    · subst hji
      exact absurd (h.le_maxI hi) (not_le.mpr hj)
    · rw [client_release_of_ne s hji]
      exact h.above j hj
  · show s.listenFd ∈ s.others.erase (s.client i).fd
    rw [hothers]
    exact h.listenFd_mem
  · show ∀ fd ∈ s.clients.erase (s.client i).fd, fd ∉ s.others.erase (s.client i).fd
    rw [hothers]
    exact fun fd hfd => h.disjoint fd (Finset.mem_of_mem_erase hfd)

end Inv

/-! ## The scan -/

/-- The scan stops at this entry. -/
def Ready (s : State) (i : Fin openMax) : Prop :=
  0 ≤ (s.client i).fd ∧ (s.client i).revents &&& POLLIN ≠ 0

instance (s : State) (i : Fin openMax) : Decidable (Ready s i) :=
  inferInstanceAs (Decidable (_ ∧ _))

/-- The ready ones of some entries. -/
def readySlots (s : State) (l : List (Fin openMax)) : List (Fin openMax) :=
  l.filter fun i => decide (Ready s i)

/-- After this `Read` the program calls `exit`. -/
def Ends : ReadResult bufferSize → Prop
  | .fail errno => errno ≠ ECONNREFUSED
  | .eof => False
  | .data _ _ _ => False

instance : DecidablePred Ends
  | .fail errno => inferInstanceAs (Decidable (errno ≠ ECONNREFUSED))
  | .eof => inferInstanceAs (Decidable False)
  | .data _ _ _ => inferInstanceAs (Decidable False)

theorem mem_readySlots {l : List (Fin openMax)} : i ∈ readySlots s l ↔ i ∈ l ∧ Ready s i := by
  rw [readySlots, List.mem_filter, decide_eq_true_iff]

/-- **What is done with a ready client**: one read; and then the program ends, or the table
is as before, or the entry is free. -/
theorem handle_cases (s : State) (i : Fin openMax) (behind : List UInt8)
    (buff : Block UInt8 bufferSize) (r : ReadResult bufferSize) :
    ∃ log, reads log = [(s.client i).fd] ∧
      (Ends r ∧ s.handle i behind buff r = (none, log) ∨
        ¬ Ends r ∧ ∃ s' buff', s.handle i behind buff r = (some (s', buff'), log) ∧
          (s' = s ∨ s' = s.release i)) := by
  cases r with
  | fail errno =>
    by_cases herrno : errno = ECONNREFUSED
    · exact ⟨_, rfl, Or.inr ⟨not_not.mpr herrno, s.release i, buff, if_pos herrno, Or.inr rfl⟩⟩
    · exact ⟨_, rfl, Or.inl ⟨herrno, if_neg herrno⟩⟩
  | eof => exact ⟨_, rfl, Or.inr ⟨not_false, s.release i, buff, rfl, Or.inr rfl⟩⟩
  | data bytes _ _ => exact ⟨_, rfl, Or.inr ⟨not_false, s, _, rfl, Or.inl rfl⟩⟩

/-- It does not touch the other entries. -/
theorem readySlots_congr {s' : State} (hs' : s' = s ∨ s' = s.release i) {l : List (Fin openMax)}
    (hi : i ∉ l) :
    readySlots s' l = readySlots s l ∧ ∀ j ∈ l, s'.client j = s.client j := by
  have hclient : ∀ j ∈ l, s'.client j = s.client j := by
    intro j hj
    rcases hs' with rfl | rfl
    · rfl
    · have hji : j ≠ i := by
        rintro rfl
        exact hi hj
      exact client_release_of_ne s hji
  refine ⟨List.filter_congr fun j hj => ?_, hclient⟩
  rw [decide_eq_decide, Ready, Ready, hclient j hj]

section Scan

variable {behind : List UInt8} {read : Fin openMax → ReadResult bufferSize} {nReady : ℤ}
  {buff : Block UInt8 bufferSize}

/-- An entry that is not ready is passed over. -/
theorem scan_of_not_ready (h : ¬ Ready s i) (l : List (Fin openMax)) :
    State.scan behind read (i :: l) nReady buff s = State.scan behind read l nReady buff s := by
  rw [State.scan]
  by_cases hneg : (s.client i).fd < 0
  · rw [if_pos hneg]
  · rw [if_neg hneg, if_neg fun hmem => h ⟨not_lt.mp hneg, hmem⟩]

/-- **The scan**, if the counter is not negative: the ready entries are read, each once and in
their order, up to the first one whose `Read` ends the program. -/
theorem scan_reads {l : List (Fin openMax)} (hl : l.Nodup) (hn : 0 ≤ nReady) :
    reads (State.scan behind read l nReady buff s).2 =
      (through (fun i => Ends (read i)) (readySlots s l)).map fun i => (s.client i).fd := by
  induction l generalizing nReady s buff with
  | nil => rfl
  | cons i l ih =>
    obtain ⟨hi, hl⟩ := List.nodup_cons.mp hl
    by_cases hready : Ready s i
    · have hcons : readySlots s (i :: l) = i :: readySlots s l :=
        List.filter_cons_of_pos (decide_eq_true hready)
      rw [hcons, through, State.scan, if_neg (not_lt.mpr hready.1), if_pos hready.2]
      obtain ⟨log, hlog, ⟨hends, heq⟩ | ⟨hends, s', buff', heq, hs'⟩⟩ :=
        handle_cases s i behind buff (read i)
      · rw [heq, if_pos hends]
        exact hlog
      · obtain ⟨hrest, hclient⟩ := readySlots_congr hs' hi
        rw [heq, if_neg hends]
        dsimp only
        rw [if_neg (by omega), reads_append, hlog, ih hl (by omega), hrest, List.map_cons,
          List.singleton_append]
        congr 1
        refine List.map_congr_left fun j hj => congrArg PollFd.fd (hclient j ?_)
        exact (mem_readySlots.mp (mem_of_mem_through _ hj)).1
    · have hcons : readySlots s (i :: l) = readySlots s l :=
        List.filter_cons_of_neg fun h => hready (of_decide_eq_true h)
      rw [hcons, scan_of_not_ready hready]
      exact ih hl hn

/-- Whatever the counter is, only ready entries are read. -/
theorem exists_of_mem_scan {l : List (Fin openMax)} (hl : l.Nodup) {fd : Fd}
    (hfd : fd ∈ reads (State.scan behind read l nReady buff s).2) :
    ∃ i ∈ readySlots s l, (s.client i).fd = fd := by
  induction l generalizing nReady s buff with
  | nil => cases hfd
  | cons i l ih =>
    obtain ⟨hi, hl⟩ := List.nodup_cons.mp hl
    by_cases hready : Ready s i
    · rw [State.scan, if_neg (not_lt.mpr hready.1), if_pos hready.2] at hfd
      have hhead : i ∈ readySlots s (i :: l) :=
        mem_readySlots.mpr ⟨List.mem_cons_self .., hready⟩
      obtain ⟨log, hlog, ⟨hends, heq⟩ | ⟨hends, s', buff', heq, hs'⟩⟩ :=
        handle_cases s i behind buff (read i)
      · rw [heq, hlog] at hfd
        exact ⟨i, hhead, (List.mem_singleton.mp hfd).symm⟩
      · rw [heq] at hfd
        dsimp only at hfd
        split at hfd
        · rw [hlog] at hfd
          exact ⟨i, hhead, (List.mem_singleton.mp hfd).symm⟩
        · rw [reads_append, hlog, List.singleton_append] at hfd
          rcases List.mem_cons.mp hfd with rfl | hfd
          · exact ⟨i, hhead, rfl⟩
          · obtain ⟨hrest, hclient⟩ := readySlots_congr hs' hi
            obtain ⟨j, hj, rfl⟩ := ih hl hfd
            rw [hrest, mem_readySlots] at hj
            exact ⟨j, mem_readySlots.mpr ⟨List.mem_cons_of_mem _ hj.1, hj.2⟩,
              congrArg PollFd.fd (hclient j hj.1).symm⟩
    · rw [scan_of_not_ready hready] at hfd
      obtain ⟨j, hj, rfl⟩ := ih hl hfd
      rw [mem_readySlots] at hj
      exact ⟨j, mem_readySlots.mpr ⟨List.mem_cons_of_mem _ hj.1, hj.2⟩, rfl⟩

theorem Inv.scan (h : Inv s) {l : List (Fin openMax)} (hl : 0 ∉ l) {s' : State}
    (hs' : (State.scan behind read l nReady buff s).1 = some s') : Inv s' := by
  induction l generalizing nReady s buff with
  | nil => exact Option.some.inj hs' ▸ h
  | cons i l ih =>
    obtain ⟨hi, hl⟩ := not_or.mp (mt List.mem_cons.mpr hl)
    by_cases hready : Ready s i
    · rw [State.scan, if_neg (not_lt.mpr hready.1), if_pos hready.2] at hs'
      obtain ⟨log, -, ⟨-, heq⟩ | ⟨-, s'', buff', heq, hs''⟩⟩ :=
        handle_cases s i behind buff (read i)
      · rw [heq] at hs'
        cases hs'
      · have h'' : Inv s'' := by
          rcases hs'' with rfl | rfl
          · exact h
          · exact h.release hready.1 (Ne.symm hi)
        rw [heq] at hs'
        dsimp only at hs'
        split at hs'
        · exact Option.some.inj hs' ▸ h''
        · exact ih h'' hl hs'
    · rw [scan_of_not_ready hready] at hs'
      exact ih h hl hs'

end Scan

/-! ## One round -/

/-- The entries of the clients for which `poll` has reported `POLLIN`. -/
def reported (s : State) : PollResult → List (Fin openMax)
  | .ok found => readySlots (s.poll (.ok found)) s.indices
  | .fail _ => []

/-- The descriptor was passed to `poll`. -/
def Passed (s : State) (fd : Fd) : Prop := 0 ≤ fd ∧ ∃ i ≤ s.maxI, (s.client i).fd = fd

/-- Each reported client is read once in this round, and nothing is read that was not passed
to `poll`. -/
structure Serves (s : State) (k : Kernel) : Prop where
  once : ∀ i ∈ reported s k.poll, (reads (s.iteration k).2).count (s.client i).fd = 1
  passed : ∀ fd ∈ reads (s.iteration k).2, Passed s fd

/-- The rounds that go well. -/
structure Fine (s : State) (k : Kernel) : Prop where
  /-- The program does not end before the last of the reported clients. -/
  last : ∀ i ∈ (reported s k.poll).dropLast, ¬ Ends (k.read i)
  /-- If there is no free entry for a new client, no other client is reported. -/
  full : Listening s k.poll → s.freeSlot = none → reported s k.poll = []
  /-- If others are reported with the new client and its entry has never been given to
  `poll`, the bit is not set there by chance, unless the program ends before the scan gets
  there. -/
  fresh : Listening s k.poll → 1 < s.nReady k.poll → ∀ i, s.freeSlot = some i → s.maxI < i →
    (s.client i).revents &&& POLLIN ≠ 0 → ∃ j ∈ reported s k.poll, Ends (k.read j)

/-- What a fine round with a new client is, if that client gets an entry. -/
theorem fine_iff_of_freeSlot {k : Kernel} (hlisten : Listening s k.poll)
    (hmany : 1 < s.nReady k.poll) {j : Fin openMax} (hfree : s.freeSlot = some j) :
    Fine s k ↔ (∀ i ∈ (reported s k.poll).dropLast, ¬ Ends (k.read i)) ∧
      (s.maxI < j ∧ (s.client j).revents &&& POLLIN ≠ 0 →
        ∃ i ∈ reported s k.poll, Ends (k.read i)) := by
  constructor
  · intro hfine
    exact ⟨hfine.last, fun hstale => hfine.fresh hlisten hmany j hfree hstale.1 hstale.2⟩
  · rintro ⟨hlast, hfresh⟩
    refine ⟨hlast, fun _ hnone => ?_, fun _ _ i hi hlt hbit => ?_⟩
    · rw [hfree] at hnone
      cases hnone
    · cases hfree.symm.trans hi
      exact hfresh ⟨hlt, hbit⟩

theorem mem_indices : i ∈ s.indices ↔ 0 < i ∧ i ≤ s.maxI := by
  rw [State.indices, List.mem_filter, decide_eq_true_iff, and_iff_right (List.mem_finRange i)]

theorem pairwise_readySlots (s t : State) : (readySlots s t.indices).Pairwise (· < ·) :=
  ((List.pairwise_lt_finRange openMax).filter _).filter _

/-- Such lists are determined by what is in them. -/
theorem eq_of_pairwise_lt {l l' : List (Fin openMax)} (hl : l.Pairwise (· < ·))
    (hl' : l'.Pairwise (· < ·)) (hmem : ∀ i, i ∈ l ↔ i ∈ l') : l = l' := by
  refine List.Perm.eq_of_pairwise (fun a b _ _ hab hba => absurd hab hba.asymm) hl hl' ?_
  exact (List.perm_ext_iff_of_nodup (hl.imp ne_of_lt) (hl'.imp ne_of_lt)).mpr hmem

theorem nodup_readySlots (s t : State) : (readySlots s t.indices).Nodup :=
  (pairwise_readySlots s t).imp ne_of_lt

theorem nodup_indices (s : State) : s.indices.Nodup :=
  List.Nodup.filter _ (List.nodup_finRange openMax)

theorem of_freeSlot_eq_some (h : s.freeSlot = some i) : 0 < i ∧ (s.client i).fd < 0 :=
  of_decide_eq_true (Fin.eq_true_of_find?_eq_some h)

/-- A reported client. -/
theorem of_mem_reported {r : PollResult} (hi : i ∈ reported s r) :
    0 < i ∧ i ≤ s.maxI ∧ 0 ≤ (s.client i).fd := by
  cases r with
  | ok found =>
    obtain ⟨hindex, hready⟩ := mem_readySlots.mp hi
    obtain ⟨hpos, hle⟩ := mem_indices.mp hindex
    refine ⟨hpos, hle, ?_⟩
    rw [← fd_poll s (.ok found)]
    exact hready.1
  | fail left => cases hi

theorem passed_of_mem_reported {r : PollResult} (hi : i ∈ reported s r) :
    Passed s (s.client i).fd := by
  obtain ⟨-, hle, hpos⟩ := of_mem_reported hi
  exact ⟨hpos, i, hle, rfl⟩

/-- The counter. -/
theorem nReady_nonneg (s : State) (found : Fin openMax → UInt16) : 0 ≤ s.nReady (.ok found) :=
  Int.natCast_nonneg _

/-- If the listener is reported and a client too, `poll` returns at least two. -/
theorem one_lt_nReady {found : Fin openMax → UInt16} (hlisten : Listening s (.ok found))
    (hi : i ∈ reported s (.ok found)) : 1 < s.nReady (.ok found) := by
  have hne : ∀ {x : UInt16}, x &&& POLLIN ≠ 0 → x ≠ 0 := by
    rintro x hx rfl
    exact hx UInt16.zero_and
  obtain ⟨hindex, hready⟩ := mem_readySlots.mp hi
  obtain ⟨hpos, hle⟩ := mem_indices.mp hindex
  have hrev := hready.2
  unfold Listening at hlisten
  rw [revents_poll, if_pos (Fin.zero_le _)] at hlisten
  rw [revents_poll, if_pos hle] at hrev
  have hsub : ({0, i} : Finset (Fin openMax)) ⊆ Finset.univ.filter fun i =>
      i ≤ s.maxI ∧ State.polled (s.client i) (found i) ≠ 0 := by
    intro j hj
    rw [Finset.mem_filter]
    rcases Finset.mem_insert.mp hj with rfl | hj
    · exact ⟨Finset.mem_univ _, Fin.zero_le _, hne hlisten⟩
    · rw [Finset.mem_singleton.mp hj]
      exact ⟨Finset.mem_univ _, hle, hne hrev⟩
  have hcard := Finset.card_le_card hsub
  rw [Finset.card_pair hpos.ne] at hcard
  exact Int.ofNat_lt.mpr hcard

section Adopt

variable {found : Fin openMax → UInt16} {j : Fin openMax} {connFd : Fd}

/-- The entry of a new client stops the scan if it was not given to `poll` and has the bit. -/
theorem ready_adopt_self (hneg : (s.client j).fd < 0) (hpos : 0 ≤ connFd) :
    Ready ((s.poll (.ok found)).adopt j connFd) j ↔
      s.maxI < j ∧ (s.client j).revents &&& POLLIN ≠ 0 := by
  rw [Ready, client_adopt_self, and_iff_right hpos]
  dsimp only
  rw [revents_poll]
  by_cases hmax : j ≤ s.maxI
  · rw [if_pos hmax, State.polled, if_pos hneg]
    exact iff_of_false (fun hne => hne rfl) fun hlt => absurd hmax (not_le.mpr hlt.1)
  · rw [if_neg hmax, and_iff_right (not_le.mp hmax)]

/-- The others stop it if they were reported. -/
theorem Inv.mem_readySlots_adopt (h : Inv s) (hi : i ≠ j) :
    i ∈ readySlots ((s.poll (.ok found)).adopt j connFd)
      ((s.poll (.ok found)).adopt j connFd).indices ↔ i ∈ reported s (.ok found) := by
  have hmaxI : ((s.poll (.ok found)).adopt j connFd).maxI = max s.maxI j := maxI_adopt _ _ _
  rw [reported, mem_readySlots, mem_readySlots, mem_indices, mem_indices, hmaxI, Ready,
    client_adopt_of_ne _ hi, ← Ready]
  constructor
  · rintro ⟨⟨hpos, -⟩, hready⟩
    exact ⟨⟨hpos, (h.poll (.ok found)).le_maxI hready.1⟩, hready⟩
  · rintro ⟨⟨hpos, hle⟩, hready⟩
    exact ⟨⟨hpos, hle.trans (le_max_left _ _)⟩, hready⟩

/-- **What the scan finds after a new client has got its entry**: the reported clients, and last
the new one, if its entry was not given to `poll` and has the bit. -/
theorem Inv.readySlots_adopt (h : Inv s) (hfree : s.freeSlot = some j) (hpos : 0 ≤ connFd) :
    readySlots ((s.poll (.ok found)).adopt j connFd) ((s.poll (.ok found)).adopt j connFd).indices =
      reported s (.ok found) ++
        if s.maxI < j ∧ (s.client j).revents &&& POLLIN ≠ 0 then [j] else [] := by
  obtain ⟨hj, hneg⟩ := of_freeSlot_eq_some hfree
  have hself : j ∈ readySlots ((s.poll (.ok found)).adopt j connFd)
      ((s.poll (.ok found)).adopt j connFd).indices ↔
        s.maxI < j ∧ (s.client j).revents &&& POLLIN ≠ 0 := by
    rw [mem_readySlots, mem_indices, maxI_adopt, ready_adopt_self hneg hpos]
    exact and_iff_right ⟨hj, le_max_right _ _⟩
  have hnot : j ∉ reported s (.ok found) := by
    intro hmem
    exact absurd (of_mem_reported hmem).2.2 (not_le.mpr hneg)
  have hlt : ∀ i ∈ reported s (.ok found), s.maxI < j → i < j := by
    intro i hi hmax
    exact (of_mem_reported hi).2.1.trans_lt hmax
  -- both lists are in the order of the entries
  have hsorted := pairwise_readySlots ((s.poll (.ok found)).adopt j connFd)
    ((s.poll (.ok found)).adopt j connFd)
  by_cases hstale : s.maxI < j ∧ (s.client j).revents &&& POLLIN ≠ 0
  · rw [if_pos hstale]
    have hsorted' : (reported s (.ok found) ++ [j]).Pairwise (· < ·) := by
      refine List.pairwise_append.mpr ⟨pairwise_readySlots _ s, List.pairwise_singleton _ _, ?_⟩
      intro i hi i' hi'
      rw [List.mem_singleton.mp hi']
      exact hlt i hi hstale.1
    refine eq_of_pairwise_lt hsorted hsorted' fun i => ?_
    rw [List.mem_append, List.mem_singleton]
    by_cases hi : i = j
    · rw [hi]
      exact iff_of_true (hself.mpr hstale) (Or.inr rfl)
    · rw [h.mem_readySlots_adopt hi, or_iff_left hi]
  · rw [if_neg hstale, List.append_nil]
    refine eq_of_pairwise_lt hsorted (pairwise_readySlots _ s) fun i => ?_
    by_cases hi : i = j
    · rw [hi]
      exact iff_of_false (mt hself.mp hstale) hnot
    · exact h.mem_readySlots_adopt hi

end Adopt

namespace Inv

/-- A round reads the clients of some entries of the table it scans, each once. -/
theorem serves_iff_of_reads {t : State} (ht : Inv t) {k : Kernel} {l : List (Fin openMax)}
    (hl : l.Nodup) (hnonneg : ∀ i ∈ l, 0 ≤ (t.client i).fd)
    (hreads : reads (s.iteration k).2 = l.map fun i => (t.client i).fd)
    (hsame : ∀ i ∈ reported s k.poll, (t.client i).fd = (s.client i).fd) :
    Serves s k ↔ (∀ i ∈ reported s k.poll, i ∈ l) ∧ ∀ i ∈ l, Passed s (t.client i).fd := by
  have hnodup : (l.map fun i => (t.client i).fd).Nodup :=
    List.Nodup.map_on (fun i hi j _ hij => ht.fd_inj (hnonneg i hi) hij) hl
  have hcount : ∀ i ∈ reported s k.poll,
      ((reads (s.iteration k).2).count (s.client i).fd = 1 ↔ i ∈ l) := by
    intro i hi
    rw [hreads, hnodup.count, ← hsame i hi]
    constructor
    · intro hone
      have hmem : (t.client i).fd ∈ l.map fun i => (t.client i).fd := by
        by_contra hnot
        rw [if_neg hnot] at hone
        exact absurd hone zero_ne_one
      obtain ⟨j, hj, hij⟩ := List.mem_map.mp hmem
      rwa [ht.fd_inj (hnonneg j hj) hij] at hj
    · intro hmem
      exact if_pos (List.mem_map_of_mem hmem)
  constructor
  · rintro ⟨honce, hpassed⟩
    refine ⟨fun i hi => (hcount i hi).mp (honce i hi), fun i hi => hpassed _ ?_⟩
    rw [hreads]
    exact List.mem_map_of_mem hi
  · rintro ⟨hall, hpassed⟩
    refine ⟨fun i hi => (hcount i hi).mpr (hall i hi), fun fd hfd => ?_⟩
    rw [hreads] at hfd
    obtain ⟨i, hi, rfl⟩ := List.mem_map.mp hfd
    exact hpassed i hi

/-- If nothing is read, nothing may be reported. -/
theorem serves_iff_of_reads_eq_nil {k : Kernel} (hreads : reads (s.iteration k).2 = []) :
    Serves s k ↔ reported s k.poll = [] := by
  constructor
  · intro hserves
    rw [List.eq_nil_iff_forall_not_mem]
    intro i hi
    have hone := hserves.once i hi
    rw [hreads, List.count_nil] at hone
    exact absurd hone zero_ne_one
  · intro hnil
    refine ⟨fun i hi => ?_, fun fd hfd => ?_⟩
    · rw [hnil] at hi
      cases hi
    · rw [hreads] at hfd
      cases hfd

/-- A round without a new client. -/
theorem serves_iff_of_not_listening (h : Inv s) {k : Kernel} (hlisten : ¬ Listening s k.poll) :
    Serves s k ↔ Fine s k := by
  have hiter := iteration_of_not_listening hlisten
  have hfine : Fine s k ↔ ∀ i ∈ (reported s k.poll).dropLast, ¬ Ends (k.read i) :=
    ⟨fun hfine => hfine.last, fun hlast =>
      ⟨hlast, fun hlisten' => absurd hlisten' hlisten, fun hlisten' => absurd hlisten' hlisten⟩⟩
  rw [hfine]
  rcases hpoll : k.poll with found | left
  · have hmem : ∀ i ∈ through (fun i => Ends (k.read i)) (reported s k.poll),
        i ∈ reported s k.poll := fun i => mem_of_mem_through _
    have hnodup : (reported s k.poll).Nodup := by
      rw [hpoll]
      exact nodup_readySlots _ s
    have hfd : ∀ i, ((s.poll (.ok found)).client i).fd = (s.client i).fd := fd_poll s _
    have hscan : reads (s.iteration k).2 = (through (fun i => Ends (k.read i))
        (reported s k.poll)).map fun i => ((s.poll (.ok found)).client i).fd := by
      rw [hiter, hpoll]
      exact scan_reads (nodup_indices s) (nReady_nonneg s found)
    rw [(h.poll (.ok found)).serves_iff_of_reads (hnodup.sublist (through_sublist _ _)) ?_ hscan
      fun i _ => hfd i, forall_mem_through_and_iff _ hnodup, hpoll]
    · intro i hi
      rw [hfd]
      exact passed_of_mem_reported hi
    · intro i hi
      rw [hfd]
      exact (of_mem_reported (hmem i hi)).2.2
  · have hnone : reported s k.poll = [] := by
      rw [hpoll]
      rfl
    refine iff_of_true ⟨fun i hi => ?_, fun fd hfd => ?_⟩ fun i hi => ?_
    · rw [hnone] at hi
      cases hi
    · rw [hiter] at hfd
      obtain ⟨i, hi, rfl⟩ := exists_of_mem_scan (nodup_indices s) hfd
      obtain ⟨hindex, hready⟩ := mem_readySlots.mp hi
      exact ⟨hready.1, i, (mem_indices.mp hindex).2, (fd_poll s _ i).symm⟩
    · cases hi

/-- The new client has not been passed to `poll`. -/
theorem not_passed (h : Inv s) {k : Kernel} (hk : k.Sound s) : ¬ Passed s k.accept := by
  rintro ⟨hpos, i, -, heq⟩
  rcases Finset.mem_insert.mp (h.fd_mem (heq ▸ hpos)) with hlisten | hclient
  · exact hk.others ((heq.symm.trans hlisten) ▸ h.listenFd_mem)
  · exact hk.clients (heq ▸ hclient)

/-- A round with a new client that gets an entry, after which the table is scanned. -/
theorem serves_iff_of_scan (h : Inv s) {k : Kernel} (hk : k.Sound s) {found : Fin openMax → UInt16}
    (hpoll : k.poll = .ok found) (hlisten : Listening s k.poll) {j : Fin openMax}
    (hfree : s.freeSlot = some j) (hmany : 1 < s.nReady k.poll) : Serves s k ↔ Fine s k := by
  obtain ⟨-, hneg⟩ := of_freeSlot_eq_some hfree
  have hneg' : ((s.poll k.poll).client j).fd < 0 := by
    rw [fd_poll]
    exact hneg
  have ht : Inv ((s.poll k.poll).adopt j k.accept) :=
    (h.poll k.poll).adopt hneg' hk.nonneg hk.others hk.clients
  have hnodup : (reported s k.poll).Nodup := by
    rw [hpoll]
    exact nodup_readySlots _ s
  have hsame : ∀ i ∈ reported s k.poll,
      (((s.poll k.poll).adopt j k.accept).client i).fd = (s.client i).fd := by
    intro i hi
    have hne : i ≠ j := by
      rintro rfl
      exact absurd (of_mem_reported hi).2.2 (not_le.mpr hneg)
    rw [client_adopt_of_ne _ hne, fd_poll]
  have hpassed : ∀ i ∈ reported s k.poll,
      Passed s (((s.poll k.poll).adopt j k.accept).client i).fd := by
    intro i hi
    rw [hsame i hi]
    exact passed_of_mem_reported hi
  have hnot : ¬ Passed s (((s.poll k.poll).adopt j k.accept).client j).fd := by
    rw [client_adopt_self]
    exact h.not_passed hk
  have hslots : readySlots ((s.poll k.poll).adopt j k.accept)
      ((s.poll k.poll).adopt j k.accept).indices = reported s k.poll ++
        if s.maxI < j ∧ (s.client j).revents &&& POLLIN ≠ 0 then [j] else [] := by
    rw [hpoll]
    exact h.readySlots_adopt hfree hk.nonneg
  have hreads : reads (s.iteration k).2 = (through (fun i => Ends (k.read i))
      (readySlots ((s.poll k.poll).adopt j k.accept)
        ((s.poll k.poll).adopt j k.accept).indices)).map
          fun i => (((s.poll k.poll).adopt j k.accept).client i).fd := by
    rw [iteration_of_scan hlisten hfree hmany]
    exact scan_reads (nodup_indices _) (by omega)
  have hserves := ht.serves_iff_of_reads
    ((nodup_readySlots _ ((s.poll k.poll).adopt j k.accept)).sublist (through_sublist _ _))
    (fun i hi => (mem_readySlots.mp (mem_of_mem_through _ hi)).2.1) hreads hsame
  rw [hserves, hslots, fine_iff_of_freeSlot hlisten hmany hfree]
  by_cases hstale : s.maxI < j ∧ (s.client j).revents &&& POLLIN ≠ 0
  · rw [if_pos hstale, forall_mem_through_concat_and_iff _ hnodup hpassed hnot]
    exact and_congr_right fun _ => ⟨fun hends _ => hends, fun himp => himp hstale⟩
  · rw [if_neg hstale, List.append_nil, forall_mem_through_and_iff _ hnodup hpassed]
    exact (and_iff_left fun hstale' => absurd hstale' hstale).symm

/-- **One round.** -/
theorem serves_iff (h : Inv s) {k : Kernel} (hk : k.Sound s) : Serves s k ↔ Fine s k := by
  by_cases hlisten : Listening s k.poll
  · rcases hfree : s.freeSlot with _ | j
    · -- `exit`, for want of a free entry
      have hreads : reads (s.iteration k).2 = [] := by
        rw [iteration_of_full hlisten hfree]
        rfl
      rw [serves_iff_of_reads_eq_nil hreads]
      constructor
      · intro hnil
        refine ⟨fun i hi => ?_, fun _ _ => hnil, fun _ _ j hj => ?_⟩
        · rw [hnil] at hi
          cases hi
        · rw [hfree] at hj
          cases hj
      · exact fun hfine => hfine.full hlisten hfree
    · by_cases hmany : 1 < s.nReady k.poll
      · rcases hpoll : k.poll with found | left
        · exact h.serves_iff_of_scan hk hpoll hlisten hfree hmany
        · rw [hpoll] at hmany
          have hfail : s.nReady (.fail left) = -1 := rfl
          omega
      · have hreads : reads (s.iteration k).2 = [] := by
          rw [iteration_of_continue hlisten hfree (not_lt.mp hmany)]
          rfl
        have hnil : reported s k.poll = [] := by
          rw [List.eq_nil_iff_forall_not_mem]
          intro i hi
          rcases hpoll : k.poll with found | left
          · rw [hpoll] at hlisten hi hmany
            exact hmany (one_lt_nReady hlisten hi)
          · rw [hpoll] at hi
            cases hi
        rw [serves_iff_of_reads_eq_nil hreads]
        refine iff_of_true hnil ⟨fun i hi => ?_, fun _ _ => hnil, fun _ hmany' => absurd hmany' hmany⟩
        rw [hnil] at hi
        cases hi
  · exact h.serves_iff_of_not_listening hlisten

/-- One round keeps the invariant. -/
theorem iteration (h : Inv s) {k : Kernel} (hk : k.Sound s) {s' : State}
    (hs' : (s.iteration k).1 = some s') : Inv s' := by
  have hzero : ∀ t : State, 0 ∉ t.indices := fun t h0 => absurd (mem_indices.mp h0).1 (lt_irrefl 0)
  by_cases hlisten : Listening s k.poll
  · rcases hfree : s.freeSlot with _ | j
    · rw [iteration_of_full hlisten hfree] at hs'
      cases hs'
    · have hneg : ((s.poll k.poll).client j).fd < 0 := by
        rw [fd_poll]
        exact (of_freeSlot_eq_some hfree).2
      have ht := (h.poll k.poll).adopt hneg hk.nonneg hk.others hk.clients
      by_cases hmany : 1 < s.nReady k.poll
      · rw [iteration_of_scan hlisten hfree hmany] at hs'
        exact ht.scan (hzero _) hs'
      · rw [iteration_of_continue hlisten hfree (not_lt.mp hmany)] at hs'
        exact Option.some.inj hs' ▸ ht
  · rw [iteration_of_not_listening hlisten] at hs'
    exact (h.poll k.poll).scan (hzero _) hs'

end Inv

/-! ## Runs -/

theorem inv_of_reachable (h : server.Reachable s) : Inv s := by
  refine h.invariant (P := Inv) ?_ ?_
  · rintro s ⟨listenFd, others, junk, h0, hmem, rfl⟩
    exact inv_start junk h0 hmem
  · rintro s k s' hs ⟨hk, hiter⟩
    exact hs.iteration hk hiter

/-- **Which rounds read what `poll` has reported.**  In every state a run can reach, the next
round reads each reported client once and nothing that was not passed to `poll` exactly if
the round is `Fine`. -/
theorem serves_reported_iff (h : server.Reachable s) {k : Kernel} (hk : k.Sound s) :
    Serves s k ↔ Fine s k :=
  (inv_of_reachable h).serves_iff hk

theorem freeSlot_eq_some (h0 : 0 < i) (hi : (s.client i).fd < 0)
    (hlt : ∀ j, 0 < j → j < i → 0 ≤ (s.client j).fd) : s.freeSlot = some i := by
  refine Fin.find?_eq_some_iff.mpr ⟨decide_eq_true ⟨h0, hi⟩, fun j hj => decide_eq_false ?_⟩
  rintro ⟨hj0, hneg⟩
  exact absurd (hlt j hj0 hj) (not_le.mpr hneg)

/-- The server with one client.  The third entry is as it was when the program started. -/
def oneClient (junk : Fin openMax → PollFd) : State where
  client := fun i =>
    if i = 0 then ⟨3, POLLIN, POLLIN⟩
    else if i = 1 then ⟨4, POLLIN, (junk 1).revents⟩ else { junk i with fd := -1 }
  maxI := 1
  listenFd := 3
  others := {3}
  clients := {4}

/-- The listener is reported, and so is any client there is; they have nothing to say. -/
def round (accept : Fd) : Kernel := ⟨.ok fun _ => POLLIN, accept, fun _ => .eof, []⟩

theorem polled_pollin {c : PollFd} (hfd : 0 ≤ c.fd) (hevents : c.events = POLLIN) :
    State.polled c POLLIN = POLLIN := by
  rw [State.polled, if_neg (not_lt.mpr hfd), hevents]
  decide

theorem three_nonneg : (0 : Fd) ≤ 3 := by decide

theorem oneClient_eq (junk : Fin openMax → PollFd) :
    ((State.start 3 {3} junk).poll (.ok fun _ => POLLIN)).adopt 1 4 = oneClient junk := by
  have hclient : (((State.start 3 {3} junk).poll (.ok fun _ => POLLIN)).adopt 1 4).client =
      (oneClient junk).client := by
    funext i
    by_cases h1 : i = 1
    · subst h1
      rfl
    · rw [client_adopt_of_ne _ h1]
      by_cases h0 : i = 0
      · subst h0
        have hrevents := polled_pollin (c := { junk 0 with fd := 3, events := POLLIN }) three_nonneg rfl
        exact congrArg (PollFd.mk 3 POLLIN) hrevents
      · have hle : ¬ i ≤ 0 := fun hle => h0 (Fin.le_zero_iff.mp hle)
        simp [State.poll, State.start, oneClient, h0, h1]
  exact congrArg (fun c => { oneClient junk with client := c }) hclient

theorem reachable_oneClient (junk : Fin openMax → PollFd) : server.Reachable (oneClient junk) := by
  have hstart : server.Reachable (State.start 3 {3} junk) :=
    .init ⟨3, {3}, junk, by decide, by decide, rfl⟩
  have hfree : (State.start 3 {3} junk).freeSlot = some 1 := by
    refine freeSlot_eq_some Fin.zero_lt_one (Int.negSucc_lt_zero 0) fun j h0 h1 => ?_
    have hval : (0 : ℕ) < j.val ∧ j.val < 1 := ⟨h0, h1⟩
    omega
  have hlisten : Listening (State.start 3 {3} junk) (round 4).poll := by
    unfold Listening
    rw [round, revents_poll, if_pos (Fin.zero_le _), polled_pollin three_nonneg rfl]
    decide
  have hone : (State.start 3 {3} junk).nReady (round 4).poll ≤ 1 := by
    refine Int.ofNat_le.mpr (Finset.card_le_one.mpr fun i hi j hj => ?_)
    rw [Fin.le_zero_iff.mp (Finset.mem_filter.mp hi).2.1,
      Fin.le_zero_iff.mp (Finset.mem_filter.mp hj).2.1]
  refine hstart.step (l := round 4) ⟨⟨by decide, ?_, ?_⟩, ?_⟩
  · exact fun hmem => absurd (Finset.mem_singleton.mp hmem) (by decide)
  · exact Finset.notMem_empty _
  · rw [iteration_of_continue hlisten hfree hone]
    exact congrArg some (oneClient_eq junk)

/-- A second client connects as the first one is ready. -/
theorem oneClient_round (junk : Fin openMax → PollFd) :
    (round 5).Sound (oneClient junk) ∧ Listening (oneClient junk) (round 5).poll ∧
      1 ∈ reported (oneClient junk) (round 5).poll ∧ (oneClient junk).freeSlot = some 2 := by
  have hbit : POLLIN &&& POLLIN ≠ 0 := by decide
  have hfour : (0 : Fd) ≤ 4 := by decide
  refine ⟨⟨by decide, ?_, ?_⟩, ?_, ?_, ?_⟩
  · exact fun hmem => absurd (Finset.mem_singleton.mp hmem) (by decide)
  · exact fun hmem => absurd (Finset.mem_singleton.mp hmem) (by decide)
  · unfold Listening
    rw [round, revents_poll, if_pos (Fin.zero_le _), polled_pollin three_nonneg rfl]
    exact hbit
  · refine mem_readySlots.mpr ⟨mem_indices.mpr ⟨Fin.zero_lt_one, le_rfl⟩, ?_, ?_⟩
    · rw [fd_poll]
      exact hfour
    · have hone : 1 ≤ (oneClient junk).maxI := le_rfl
      rw [revents_poll, if_pos hone, polled_pollin hfour rfl]
      exact hbit
  · refine freeSlot_eq_some (by decide) (Int.negSucc_lt_zero 0) fun j h0 h2 => ?_
    have hval : (0 : ℕ) < j.val ∧ j.val < 2 := ⟨h0, h2⟩
    have hone : j.val = 1 := by omega
    rw [Fin.ext hone (b := 1)]
    exact hfour

/-- If the third entry held zeros, both are served. -/
theorem serves_reported_two : ∃ s k, 1 ∈ reported s (Kernel.poll k) ∧ Listening s k.poll ∧ Serves s k := by
  obtain ⟨hk, hlisten, hmem, hfree⟩ := oneClient_round fun _ => ⟨0, 0, 0⟩
  refine ⟨_, _, hmem, hlisten, (serves_reported_iff (reachable_oneClient _) hk).mpr ⟨?_, ?_, ?_⟩⟩
  · exact fun _ _ hends => hends
  · intro _ hnone
    rw [hfree] at hnone
    cases hnone
  · intro _ _ i hi _ hbit
    cases hfree.symm.trans hi
    exact absurd rfl hbit

/-- If it held ones, the new client is read although `poll` did not look at it. -/
theorem not_serves_unwritten : ∃ s k, server.Reachable s ∧ Kernel.Sound s k ∧ ¬ Serves s k := by
  obtain ⟨hk, hlisten, hmem, hfree⟩ := oneClient_round fun _ => ⟨0, 1, 1⟩
  have hreachable := reachable_oneClient fun _ => ⟨0, 1, 1⟩
  refine ⟨_, _, hreachable, hk, fun hserves => ?_⟩
  have hfine := ((inv_of_reachable hreachable).serves_iff hk).mp hserves
  obtain ⟨i, -, hends⟩ := hfine.fresh hlisten (one_lt_nReady hlisten hmem) 2 hfree (by decide) (by decide)
  exact hends

end Poll
end UnixNetwork
