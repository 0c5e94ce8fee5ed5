import Mathlib.Data.Fin.Tuple.Basic
import Mathlib.Data.Int.Interval
import UnixNetwork.Multiplex.Descriptors
import UnixNetwork.Tables.Slots
import UnixNetwork.Transition.System

/-!
# The `select` server with an array of clients

`select_epoll/select_advance.cpp`.  The clients are kept in an array, so that the server
need not look at all 1024 descriptors: `maxi` is the last index in use, `maxfd` the largest
descriptor, and `allset` what `select` is asked to watch.  The scan over the array counts
down the number of ready descriptors and stops when it is zero.

`iteration` is one round of the loop, given what `select`, `accept` and `read` return;
`none` is an exit, because `select` failed or for want of a free slot.

`scan_reads` is where the counter matters: if it starts at the number of ready clients in
the part of the array still to be scanned, the scan reads exactly these, in order.
`Inv` is what makes it start there, and `serves_ready` puts both together.
-/

namespace UnixNetwork
namespace SelectAdvance

open Multiplex

/-- `BUFSIZ`. -/
def bufsiz : ℕ := 8192

/-- The local variables of `main`, and the descriptors in use. -/
structure State where
  client : Fin fdSetSize → Fd
  maxi : ℤ
  maxfd : Fd
  allset : Finset Fd
  listenfd : Fd
  /-- Descriptors in use that are not clients. -/
  others : Finset Fd
  /-- Clients accepted and not closed yet. -/
  clients : Finset Fd

namespace State

/-- The first slot for which the loop over `client` stops. -/
def freeSlot (s : State) : Option (Fin fdSetSize) := Fin.find? fun i => decide (s.client i < 0)

/-- A new client gets a slot. -/
def adopt (s : State) (i : Fin fdSetSize) (connfd : Fd) : State :=
  { s with
    client := Function.update s.client i connfd
    allset := insert connfd s.allset
    maxfd := if s.maxfd < connfd then connfd else s.maxfd
    maxi := if s.maxi < (i : ℕ) then (i : ℕ) else s.maxi
    clients := insert connfd s.clients }

/-- A client is closed and its slot marked as free. -/
def release (s : State) (i : Fin fdSetSize) (sockfd : Fd) : State :=
  { s with
    client := Function.update s.client i (-1)
    allset := s.allset.erase sockfd
    others := s.others.erase sockfd
    clients := s.clients.erase sockfd }

/-- What is done with a ready client, by the result of `Read`. -/
def handle (s : State) (i : Fin fdSetSize) (sockfd : Fd) :
    ReadResult bufsiz → State × List Action
  | .eof => (s.release i sockfd, [.read sockfd, .close sockfd])
  | .data bytes _ _ =>
    (s, [.read sockfd, .write sockfd (bytes.map toUpper), .write 1 (bytes.map toUpper)])
  | .fail _ => (s, [.read sockfd])

/-- The loop over `client`, from some index on. -/
def scan (rset : Finset Fd) (read : Fin fdSetSize → ReadResult bufsiz) :
    List (Fin fdSetSize) → ℤ → State → State × List Action
  | [], _, s => (s, [])
  | i :: rest, nready, s =>
    if s.client i < 0 then scan rset read rest nready s
    else if s.client i ∈ rset then
      let r := s.handle i (s.client i) (read i)
      if nready - 1 = 0 then r
      else ((scan rset read rest (nready - 1) r.1).1, r.2 ++ (scan rset read rest (nready - 1) r.1).2)
    else scan rset read rest nready s

/-- The indices `0` to `maxi`. -/
def indices (s : State) : List (Fin fdSetSize) :=
  (List.finRange fdSetSize).filter fun i => decide ((i : ℤ) ≤ s.maxi)

/-- One round of the loop of `main`, once `select` has returned. -/
def iteration (s : State) (rset : Finset Fd) (nready : ℤ) (connfd : Fd)
    (read : Fin fdSetSize → ReadResult bufsiz) : Option (State × List Action) :=
  if nready < 0 then none
  else if s.listenfd ∈ rset then
    match s.freeSlot with
    | none => none
    | some i =>
      if nready - 1 = 0 then some (s.adopt i connfd, [])
      else some (scan rset read (s.adopt i connfd).indices (nready - 1) (s.adopt i connfd))
  else some (scan rset read s.indices nready s)

/-- `main`, up to its loop. -/
def start (listenfd : Fd) (others : Finset Fd) : State where
  client := fun _ => -1
  maxi := -1
  maxfd := listenfd
  allset := {listenfd}
  listenfd := listenfd
  others := others
  clients := ∅

end State

/-! ## The transition system -/

/-- What the system calls of one round give. -/
structure Kernel where
  rset : Finset Fd
  nready : ℤ
  accept : Fd
  read : Fin fdSetSize → ReadResult bufsiz

/-- `select` leaves some of the descriptors it was asked for; `accept` returns a descriptor
below `FD_SETSIZE` that is not in use. -/
structure Kernel.Sound (s : State) (k : Kernel) : Prop where
  rset : k.rset ⊆ s.allset
  nonneg : 0 ≤ k.accept
  lt : k.accept < (fdSetSize : ℤ)
  others : k.accept ∉ s.others
  clients : k.accept ∉ s.clients

/-- The server. -/
def server : TransitionSystem State Kernel where
  init := fun s => ∃ (listenfd : Fd) (others : Finset Fd), 0 ≤ listenfd ∧
    listenfd < (fdSetSize : ℤ) ∧ listenfd ∈ others ∧ s = State.start listenfd others
  step := fun s k s' => k.Sound s ∧
    ∃ log, s.iteration k.rset k.nready k.accept k.read = some (s', log)

/-! ## The invariant -/

/-- **The invariant.** -/
structure Inv (s : State) : Prop where
  holds : Slots.Holds (slotKey ∘ s.client) s.clients
  free : ∀ i, s.client i < 0 → s.client i = -1
  above : ∀ i : Fin fdSetSize, s.maxi < (i : ℕ) → s.client i = -1
  allset : s.allset = insert s.listenfd s.clients
  le_maxfd : ∀ fd ∈ s.allset, fd ≤ s.maxfd
  range : ∀ fd ∈ s.allset, 0 ≤ fd ∧ fd < (fdSetSize : ℤ)
  listenfd_mem : s.listenfd ∈ s.others
  disjoint : ∀ fd ∈ s.clients, fd ∉ s.others

variable {s : State} {i : Fin fdSetSize}

theorem inv_start {listenfd : Fd} {others : Finset Fd} (h0 : 0 ≤ listenfd)
    (hlt : listenfd < (fdSetSize : ℤ)) (hmem : listenfd ∈ others) :
    Inv (State.start listenfd others) := by
  have hone : ∀ fd ∈ (State.start listenfd others).allset, fd = listenfd := by
    intro fd hfd
    exact Finset.mem_singleton.mp hfd
  refine ⟨?_, ?_, ?_, ?_, ?_, ?_, hmem, ?_⟩
  · exact Slots.Holds.empty
  · intro i _
    rfl
  · intro i _
    rfl
  · rfl
  · intro fd hfd
    exact (hone fd hfd).le
  · intro fd hfd
    rw [hone fd hfd]
    exact ⟨h0, hlt⟩
  · intro fd hfd
    exact absurd hfd (Finset.notMem_empty fd)

namespace Inv

theorem mem_allset (h : Inv s) {fd : Fd} : fd ∈ s.allset ↔ fd = s.listenfd ∨ fd ∈ s.clients := by
  rw [h.allset, Finset.mem_insert]

theorem client_mem (h : Inv s) (hi : 0 ≤ s.client i) : s.client i ∈ s.clients :=
  h.holds.mem (slotKey_of_nonneg hi)

theorem nonneg (h : Inv s) {fd : Fd} (hfd : fd ∈ s.clients) : 0 ≤ fd :=
  (h.range fd (h.mem_allset.mpr (Or.inr hfd))).1

/-- The slot of a client. -/
theorem exists_slot (h : Inv s) {fd : Fd} (hfd : fd ∈ s.clients) : ∃ i, s.client i = fd := by
  obtain ⟨i, hi⟩ := (h.holds.mem_iff fd).mp hfd
  exact ⟨i, (slotKey_eq_some_iff.mp hi).1⟩

theorem client_inj (h : Inv s) {j : Fin fdSetSize} (hi : 0 ≤ s.client i)
    (hij : s.client i = s.client j) : i = j := by
  refine h.holds.inj i j (s.client i) (slotKey_of_nonneg hi) ?_
  rw [Function.comp_apply, ← hij]
  exact slotKey_of_nonneg hi

/-- The client of a slot is not the listener. -/
theorem ne_listenfd (h : Inv s) {fd : Fd} (hfd : fd ∈ s.clients) : fd ≠ s.listenfd := by
  rintro rfl
  exact h.disjoint _ hfd h.listenfd_mem

/-- A slot in use has an index of at most `maxi`. -/
theorem le_maxi (h : Inv s) (hi : 0 ≤ s.client i) : ((i : ℕ) : ℤ) ≤ s.maxi := by
  by_contra hlt
  have hfree := h.above i (not_le.mp hlt)
  rw [hfree] at hi
  exact absurd hi (by decide)

/-- There are fewer clients than slots, as descriptors are below `FD_SETSIZE` and one of them
is the listener's. -/
theorem card_clients_lt (h : Inv s) : s.clients.card < fdSetSize := by
  have hsub : s.allset ⊆ Finset.Ico (0 : ℤ) fdSetSize := by
    intro fd hfd
    exact Finset.mem_Ico.mpr (h.range fd hfd)
  have hcard := Finset.card_le_card hsub
  have hnot : s.listenfd ∉ s.clients := fun hmem => h.ne_listenfd hmem rfl
  rw [h.allset, Finset.card_insert_of_notMem hnot, Int.card_Ico, sub_zero, Int.toNat_natCast]
    at hcard
  exact hcard

/-- So there is a free slot. -/
theorem exists_freeSlot (h : Inv s) : ∃ i, s.freeSlot = some i ∧ s.client i < 0 := by
  obtain ⟨j, hj⟩ := h.holds.exists_free_iff.mpr h.card_clients_lt
  have hneg : s.client j < 0 := slotKey_eq_none_iff.mp hj
  unfold State.freeSlot
  rcases hfind : Fin.find? fun i => decide (s.client i < 0) with _ | i
  · rw [Fin.find?_eq_none_iff] at hfind
    exact absurd hneg (of_decide_eq_false (hfind j))
  · exact ⟨i, rfl, of_decide_eq_true (Fin.eq_true_of_find?_eq_some hfind)⟩

/-- A new client. -/
theorem adopt (h : Inv s) (hi : s.client i < 0) {k : Kernel} (hk : k.Sound s) :
    Inv (s.adopt i k.accept) := by
  have hkey : slotKey ∘ Function.update s.client i k.accept =
      Function.update (slotKey ∘ s.client) i (some k.accept) := by
    rw [Function.comp_update, slotKey_of_nonneg hk.nonneg]
  have hclient : ∀ j, (s.adopt i k.accept).client j = k.accept ∧ j = i ∨
      (s.adopt i k.accept).client j = s.client j ∧ j ≠ i := by
    intro j
    by_cases hji : j = i
    · exact Or.inl ⟨hji ▸ Function.update_self _ _ _, hji⟩
    · exact Or.inr ⟨Function.update_of_ne hji _ _, hji⟩
  have hmaxfd : s.maxfd ≤ (s.adopt i k.accept).maxfd ∧ k.accept ≤ (s.adopt i k.accept).maxfd :=
    le_greater s.maxfd k.accept
  have hmaxi : s.maxi ≤ (s.adopt i k.accept).maxi ∧ ((i : ℕ) : ℤ) ≤ (s.adopt i k.accept).maxi :=
    le_greater s.maxi (i : ℕ)
  refine ⟨?_, ?_, ?_, ?_, ?_, ?_, h.listenfd_mem, ?_⟩
  · show Slots.Holds (slotKey ∘ Function.update s.client i k.accept) (insert k.accept s.clients)
    rw [hkey]
    exact h.holds.insert (slotKey_eq_none_iff.mpr hi) hk.clients
  · intro j hj
    rcases hclient j with ⟨heq, -⟩ | ⟨heq, -⟩
    · rw [heq] at hj
      exact absurd hk.nonneg (not_le.mpr hj)
    · rw [heq] at hj ⊢
      exact h.free j hj
  · intro j hj
    rcases hclient j with ⟨-, rfl⟩ | ⟨heq, -⟩
    · exact absurd hmaxi.2 (not_le.mpr hj)
    · rw [heq]
      exact h.above j (hmaxi.1.trans_lt hj)
  · show insert k.accept s.allset = insert s.listenfd (insert k.accept s.clients)
    rw [h.allset, Finset.insert_comm]
  · intro fd hfd
    rcases Finset.mem_insert.mp hfd with rfl | hfd
    · exact hmaxfd.2
    · exact (h.le_maxfd fd hfd).trans hmaxfd.1
  · intro fd hfd
    rcases Finset.mem_insert.mp hfd with rfl | hfd
    · exact ⟨hk.nonneg, hk.lt⟩
    · exact h.range fd hfd
  · intro fd hfd
    rcases Finset.mem_insert.mp hfd with rfl | hfd
    · exact hk.others
    · exact h.disjoint fd hfd

/-- A client goes. -/
theorem release (h : Inv s) (hi : 0 ≤ s.client i) : Inv (s.release i (s.client i)) := by
  have hkey : slotKey ∘ Function.update s.client i (-1) =
      Function.update (slotKey ∘ s.client) i none := by
    rw [Function.comp_update, slotKey_neg_one]
  have hclient : ∀ j, (s.release i (s.client i)).client j = -1 ∨
      (s.release i (s.client i)).client j = s.client j := by
    intro j
    by_cases hji : j = i
    · exact Or.inl (hji ▸ Function.update_self _ _ _)
    · exact Or.inr (Function.update_of_ne hji _ _)
  have hmem := h.client_mem hi
  have hothers : s.others.erase (s.client i) = s.others :=
    Finset.erase_eq_of_notMem (h.disjoint _ hmem)
  refine ⟨?_, ?_, ?_, ?_, ?_, ?_, ?_, ?_⟩
  · show Slots.Holds (slotKey ∘ Function.update s.client i (-1)) (s.clients.erase (s.client i))
    rw [hkey]
    exact h.holds.erase (slotKey_of_nonneg hi)
  · intro j hj
    rcases hclient j with heq | heq
    · exact heq
    · rw [heq] at hj ⊢
      exact h.free j hj
  · intro j hj
    rcases hclient j with heq | heq
    · exact heq
    · rw [heq]
      exact h.above j hj
  · show s.allset.erase (s.client i) = insert s.listenfd (s.clients.erase (s.client i))
    rw [h.allset, Finset.erase_insert_of_ne (h.ne_listenfd hmem).symm]
  · intro fd hfd
    exact h.le_maxfd fd (Finset.mem_of_mem_erase hfd)
  · intro fd hfd
    exact h.range fd (Finset.mem_of_mem_erase hfd)
  · show s.listenfd ∈ s.others.erase (s.client i)
    rw [hothers]
    exact h.listenfd_mem
  · show ∀ fd ∈ s.clients.erase (s.client i), fd ∉ s.others.erase (s.client i)
    rw [hothers]
    exact fun fd hfd => h.disjoint fd (Finset.mem_of_mem_erase hfd)

theorem handle (h : Inv s) (hi : 0 ≤ s.client i) (r : ReadResult bufsiz) :
    Inv (s.handle i (s.client i) r).1 := by
  cases r with
  | eof => exact h.release hi
  | data bytes _ _ => exact h
  | fail _ => exact h

end Inv

/-! ## The scan -/

/-- The slot of a client that is ready. -/
def Ready (s : State) (rset : Finset Fd) (i : Fin fdSetSize) : Prop :=
  0 ≤ s.client i ∧ s.client i ∈ rset

instance (s : State) (rset : Finset Fd) (i : Fin fdSetSize) : Decidable (Ready s rset i) :=
  inferInstanceAs (Decidable (_ ∧ _))

/-- The slots of the ready clients. -/
def readySlots (s : State) (rset : Finset Fd) (l : List (Fin fdSetSize)) : List (Fin fdSetSize) :=
  l.filter fun i => decide (Ready s rset i)

theorem reads_handle (fd : Fd) (r : ReadResult bufsiz) : reads (s.handle i fd r).2 = [fd] := by
  cases r <;> rfl

theorem handle_client (fd : Fd) (r : ReadResult bufsiz) {j : Fin fdSetSize} (hji : j ≠ i) :
    (s.handle i fd r).1.client j = s.client j := by
  cases r with
  | eof => exact Function.update_of_ne hji _ _
  | data bytes _ _ => rfl
  | fail _ => rfl

/-- What is done with one client does not touch the others. -/
theorem readySlots_handle (fd : Fd) (r : ReadResult bufsiz) (rset : Finset Fd)
    {l : List (Fin fdSetSize)} (hi : i ∉ l) :
    readySlots (s.handle i fd r).1 rset l = readySlots s rset l ∧
      ∀ j ∈ l, (s.handle i fd r).1.client j = s.client j := by
  have hclient : ∀ j ∈ l, (s.handle i fd r).1.client j = s.client j := by
    intro j hj
    exact handle_client fd r fun heq => hi (heq ▸ hj)
  refine ⟨List.filter_congr fun j hj => ?_, hclient⟩
  rw [decide_eq_decide, Ready, Ready, hclient j hj]

variable {rset : Finset Fd} {read : Fin fdSetSize → ReadResult bufsiz} {nready : ℤ}

/-- **The scan.**  If the counter is the number of ready clients that are still to come, they
are read, each once and in the order of their slots, and nothing else is. -/
theorem scan_reads {l : List (Fin fdSetSize)} (hl : l.Nodup)
    (hn : nready = ((readySlots s rset l).length : ℕ)) :
    reads (State.scan rset read l nready s).2 = (readySlots s rset l).map s.client := by
  induction l generalizing nready s with
  | nil => rfl
  | cons i l ih =>
    obtain ⟨hi, hl⟩ := List.nodup_cons.mp hl
    by_cases hready : Ready s rset i
    · -- it is read, and the counter goes down
      have hcons : readySlots s rset (i :: l) = i :: readySlots s rset l :=
        List.filter_cons_of_pos (decide_eq_true hready)
      rw [hcons, List.length_cons, Nat.cast_succ] at hn
      rw [hcons, List.map_cons, State.scan, if_neg (not_lt.mpr hready.1), if_pos hready.2]
      obtain ⟨hrest, hclient⟩ := readySlots_handle (s := s) (s.client i) (read i) rset hi
      dsimp only
      split
      · rename_i hzero
        have hnil : readySlots s rset l = [] := List.length_eq_zero_iff.mp (by omega)
        rw [reads_handle, hnil, List.map_nil]
      · have hcount : nready - 1 =
            ((readySlots (s.handle i (s.client i) (read i)).1 rset l).length : ℕ) := by
          rw [hrest]
          omega
        rw [reads_append, reads_handle, ih hl hcount, hrest, List.singleton_append]
        congr 1
        refine List.map_congr_left fun j hj => hclient j ?_
        exact (List.mem_filter.mp hj).1
    · have hcons : readySlots s rset (i :: l) = readySlots s rset l :=
        List.filter_cons_of_neg fun h => hready (of_decide_eq_true h)
      rw [hcons] at hn ⊢
      have hscan : State.scan rset read (i :: l) nready s = State.scan rset read l nready s := by
        rw [State.scan]
        by_cases hneg : s.client i < 0
        · rw [if_pos hneg]
        · rw [if_neg hneg, if_neg fun hmem => hready ⟨not_lt.mp hneg, hmem⟩]
      rw [hscan]
      exact ih hl hn

theorem Inv.scan (h : Inv s) (l : List (Fin fdSetSize)) :
    Inv (State.scan rset read l nready s).1 := by
  induction l generalizing nready s with
  | nil => exact h
  | cons i l ih =>
    rw [State.scan]
    split
    · exact ih h
    · rename_i hnonneg
      have h' := h.handle (not_lt.mp hnonneg) (read i)
      split
      · dsimp only
        split
        · exact h'
        · exact ih h'
      · exact ih h

/-! ## One round -/

theorem nodup_indices (s : State) : s.indices.Nodup :=
  List.Nodup.filter _ (List.nodup_finRange fdSetSize)

namespace Inv

/-- `select` reports clients, and perhaps the listener. -/
theorem filter_clients (h : Inv s) (hsub : rset ⊆ s.allset) :
    rset.filter (fun fd => fd ∈ s.clients) = rset.erase s.listenfd := by
  ext fd
  rw [Finset.mem_filter, Finset.mem_erase, and_comm]
  constructor
  · rintro ⟨hclient, hmem⟩
    exact ⟨h.ne_listenfd hclient, hmem⟩
  · rintro ⟨hne, hmem⟩
    exact ⟨(h.mem_allset.mp (hsub hmem)).resolve_left hne, hmem⟩

/-- The slots up to `maxi` have all the clients. -/
theorem mem_readySlots (h : Inv s) {fd : Fd} :
    fd ∈ (readySlots s rset s.indices).map s.client ↔ fd ∈ rset ∧ fd ∈ s.clients := by
  constructor
  · intro hfd
    obtain ⟨i, hi, rfl⟩ := List.mem_map.mp hfd
    have hready : Ready s rset i := of_decide_eq_true (List.mem_filter.mp hi).2
    exact ⟨hready.2, h.client_mem hready.1⟩
  · rintro ⟨hmem, hclient⟩
    obtain ⟨i, rfl⟩ := h.exists_slot hclient
    have hi := h.nonneg hclient
    have hindex : i ∈ s.indices :=
      List.mem_filter.mpr ⟨List.mem_finRange i, decide_eq_true (h.le_maxi hi)⟩
    exact List.mem_map_of_mem (List.mem_filter.mpr ⟨hindex, decide_eq_true ⟨hi, hmem⟩⟩)

theorem nodup_readySlots (h : Inv s) : ((readySlots s rset s.indices).map s.client).Nodup := by
  refine List.Nodup.map_on ?_ ((nodup_indices s).filter _)
  intro i hi j _ hij
  have hready : Ready s rset i := of_decide_eq_true (List.mem_filter.mp hi).2
  exact h.client_inj hready.1 hij

/-- A scan that is told how many clients are ready reads each of them once. -/
theorem count_scan (h : Inv s) (rset : Finset Fd) (read : Fin fdSetSize → ReadResult bufsiz)
    (hn : nready = (rset.filter fun fd => fd ∈ s.clients).card) (fd : Fd) :
    (reads (State.scan rset read s.indices nready s).2).count fd =
      if fd ∈ rset ∧ fd ∈ s.clients then 1 else 0 := by
  have hset : ((readySlots s rset s.indices).map s.client).toFinset =
      rset.filter fun fd => fd ∈ s.clients := by
    ext fd
    rw [List.mem_toFinset, h.mem_readySlots, Finset.mem_filter]
  have hcount : nready = ((readySlots s rset s.indices).length : ℕ) := by
    rw [hn, ← hset, List.toFinset_card_of_nodup h.nodup_readySlots, List.length_map]
  rw [scan_reads (nodup_indices s) hcount, h.nodup_readySlots.count]
  exact if_congr h.mem_readySlots rfl rfl

/-- **One round** keeps the invariant, whatever `select` counts. -/
theorem iteration (h : Inv s) {k : Kernel} (hk : k.Sound s) {s' : State} {log : List Action}
    (hs : s.iteration k.rset k.nready k.accept k.read = some (s', log)) : Inv s' := by
  obtain ⟨i, hfree, hi⟩ := h.exists_freeSlot
  have h' := h.adopt hi hk
  rw [State.iteration, hfree] at hs
  split at hs
  · cases hs
  · split at hs
    · dsimp only at hs
      split at hs
      · cases hs
        exact h'
      · obtain rfl : (State.scan k.rset k.read _ _ _).1 = s' := congrArg Prod.fst (Option.some.inj hs)
        exact h'.scan _
    · obtain rfl : (State.scan k.rset k.read _ _ _).1 = s' := congrArg Prod.fst (Option.some.inj hs)
      exact h.scan _

/-- One round reads the ready clients, if `select` counts what it reports. -/
theorem iteration_reads (h : Inv s) {k : Kernel} (hk : k.Sound s) (hn : k.nready = k.rset.card) :
    ∃ s' log, s.iteration k.rset k.nready k.accept k.read = some (s', log) ∧
      ∀ fd, (reads log).count fd = if fd ∈ k.rset ∧ fd ∈ s.clients then 1 else 0 := by
  obtain ⟨i, hfree, hi⟩ := h.exists_freeSlot
  have h' := h.adopt hi hk
  have hclients := h.filter_clients hk.rset
  have hclients' : (k.rset.filter fun fd => fd ∈ (s.adopt i k.accept).clients) =
      k.rset.erase s.listenfd :=
    h'.filter_clients (hk.rset.trans (Finset.subset_insert _ _))
  rw [State.iteration, hfree, if_neg (by omega)]
  by_cases hlisten : s.listenfd ∈ k.rset
  · rw [if_pos hlisten]
    have hcard : k.nready - 1 = (k.rset.erase s.listenfd).card := by
      rw [hn, ← Finset.card_erase_add_one hlisten]
      omega
    -- the new client is not in `rset`
    have hmem : ∀ fd, fd ∈ k.rset ∧ fd ∈ (s.adopt i k.accept).clients ↔
        fd ∈ k.rset ∧ fd ∈ s.clients := by
      intro fd
      rw [← Finset.mem_filter (p := fun fd => fd ∈ s.clients), hclients, ← hclients',
        Finset.mem_filter]
    by_cases hzero : k.nready - 1 = 0
    · refine ⟨_, _, if_pos hzero, fun fd => ?_⟩
      rw [if_neg]
      · rfl
      · rw [← Finset.mem_filter (p := fun fd => fd ∈ s.clients), hclients,
          Finset.card_eq_zero.mp (by omega : (k.rset.erase s.listenfd).card = 0)]
        exact Finset.notMem_empty fd
    · have hcount := h'.count_scan k.rset k.read (hcard.trans (by rw [hclients']))
      dsimp only
      rw [if_neg hzero]
      rcases hscan : State.scan k.rset k.read (s.adopt i k.accept).indices (k.nready - 1)
        (s.adopt i k.accept) with ⟨s', log⟩
      rw [hscan] at hcount
      refine ⟨s', log, rfl, fun fd => (hcount fd).trans ?_⟩
      exact if_congr (hmem fd) rfl rfl
  · have hcard : k.nready = (k.rset.filter fun fd => fd ∈ s.clients).card := by
      rw [hclients, Finset.erase_eq_of_notMem hlisten, hn]
    have hcount := h.count_scan k.rset k.read hcard
    rw [if_neg hlisten]
    rcases hscan : State.scan k.rset k.read s.indices k.nready s with ⟨s', log⟩
    rw [hscan] at hcount
    exact ⟨s', log, rfl, hcount⟩

end Inv

/-! ## Runs -/

theorem inv_of_reachable (h : server.Reachable s) : Inv s := by
  refine h.invariant (P := Inv) ?_ ?_
  · rintro s ⟨listenfd, others, h0, hlt, hmem, rfl⟩
    exact inv_start h0 hlt hmem
  · rintro s k s' hs ⟨hk, log, hiter⟩
    exact hs.iteration hk hiter

/-- The table and the set go together. -/
structure Consistent (s : State) : Prop where
  distinct : ∀ i j, 0 ≤ s.client i → s.client i = s.client j → i = j
  clients : ∀ fd, fd ∈ s.clients ↔ 0 ≤ fd ∧ ∃ i, s.client i = fd
  above : ∀ i : Fin fdSetSize, s.maxi < (i : ℕ) → s.client i = -1
  allset : s.allset = insert s.listenfd s.clients
  le_maxfd : ∀ fd ∈ s.allset, fd ≤ s.maxfd

theorem Inv.consistent (h : Inv s) : Consistent s := by
  refine ⟨fun i j => h.client_inj, fun fd => ?_, h.above, h.allset, h.le_maxfd⟩
  constructor
  · intro hfd
    exact ⟨h.nonneg hfd, h.exists_slot hfd⟩
  · rintro ⟨hfd, i, rfl⟩
    exact h.client_mem hfd

/-- **The ready clients are served.**  In every reachable state, `client`, `maxi`, `maxfd` and
`allset` are as they should be; and if `select` then counts what it reports, the round reads
each client it reports once, and no other descriptor. -/
theorem serves_ready (h : server.Reachable s) :
    Consistent s ∧ ∀ k : Kernel, k.Sound s → k.nready = k.rset.card →
      ∃ s' log, s.iteration k.rset k.nready k.accept k.read = some (s', log) ∧
        ∀ fd, (reads log).count fd = if fd ∈ k.rset ∧ fd ∈ s.clients then 1 else 0 :=
  ⟨(inv_of_reachable h).consistent, fun _ hk hn => (inv_of_reachable h).iteration_reads hk hn⟩

/-- After one client has connected. -/
theorem exists_run : ∃ s, server.Reachable s ∧ s.listenfd = 3 ∧ s.others = {0, 1, 2, 3} ∧
    s.clients = {4} ∧ s.allset = {4, 3} := by
  have hstart : server.Reachable (State.start 3 {0, 1, 2, 3}) :=
    .init ⟨3, {0, 1, 2, 3}, by decide, by decide, by decide, rfl⟩
  obtain ⟨i, hfree, -⟩ := (inv_of_reachable hstart).exists_freeSlot
  have hround : (State.start 3 {0, 1, 2, 3}).iteration {3} 1 4 (fun _ => .eof) =
      some ((State.start 3 {0, 1, 2, 3}).adopt i 4, []) := by
    rw [State.iteration, hfree]
    rfl
  refine ⟨_, hstart.step (l := ⟨{3}, 1, 4, fun _ => .eof⟩) ⟨?_, [], hround⟩, rfl, rfl, rfl, rfl⟩
  exact ⟨Finset.Subset.refl _, by decide, by decide, by decide, by decide⟩

/-- A second client connects while the first one is ready. -/
theorem serves_ready_two : ∃ s s' log, s.clients = {4} ∧ Consistent s ∧
    s.iteration {3, 4} 2 5 (fun _ => .eof) = some (s', log) ∧
    ∀ fd, (reads log).count fd = if fd ∈ ({3, 4} : Finset Fd) ∧ fd ∈ s.clients then 1 else 0 := by
  obtain ⟨s, hs, -, hothers, hclients, hallset⟩ := exists_run
  have hk : Kernel.Sound s ⟨{3, 4}, 2, 5, fun _ => .eof⟩ := by
    refine ⟨?_, by decide, by decide, ?_, ?_⟩
    · rw [hallset]
      decide
    · rw [hothers]
      decide
    · rw [hclients]
      decide
  obtain ⟨hconsistent, hserves⟩ := serves_ready hs
  obtain ⟨s', log, hiter, hcount⟩ := hserves _ hk rfl
  exact ⟨s, s', log, hclients, hconsistent, hiter, hcount⟩

end SelectAdvance
end UnixNetwork
