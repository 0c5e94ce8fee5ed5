import UnixNetwork.Multiplex.Reactor
import UnixNetwork.Tables.Slots

/-!
# What the reactor keeps, and for how long

Each of the first 1024 slots of the table is free or belongs to one client, and then its
callback, what it waits for, its registration and its buffer go together: `Conn` says how.
`Inv` says that this is so of all slots, and that the last one is the listener's.

A callback can do three things to a client's slot, and `Inv.touch`, `Inv.release` and
`Inv.adopt` say that each of them keeps the invariant.  `dispatch_cases` says that there
are no others --- as long as `initAccept` finds a free slot.  By counting, it does exactly
as long as there are fewer than 1024 clients; with one client more it takes the
listener's.
-/

namespace UnixNetwork
namespace EpollReactor

open Bytes Multiplex

/-! ## The invariant -/

/-- The client a slot belongs to, by its `fd`. -/
def key (fd : Fd) : Option Fd := if fd = 0 then none else some fd

/-- The clients in the first 1024 slots. -/
def fds (t : Slot → XxEvent) : Fin eventSize → Option Fd := fun i => key (t i.castSucc).fd

/-- A slot in use, given what was read from its client and written to it: it waits for
more and all was written back, or it waits to write back what it has in its buffer. -/
inductive Conn (ev : XxEvent) (received sent : List UInt8) : Prop
  | reading : ev.events = EPOLLIN → ev.callBack = some .readData → received = sent →
      Conn ev received sent
  | writing : ev.events = EPOLLOUT → ev.callBack = some .senddata → 0 < ev.buflen →
      ev.buflen ≤ bufLen → received = sent ++ ev.buf.toList.take ev.buflen.toNat →
      Conn ev received sent

/-- The slot of the listening socket. -/
structure Listening (ev : XxEvent) (lfd : Fd) : Prop where
  fd : ev.fd = lfd
  events : ev.events = EPOLLIN
  callBack : ev.callBack = some .initAccept

/-- One of the first 1024 slots: free, or registered for its client. -/
inductive SlotInv (s : State) (i : Fin eventSize) (ev : XxEvent) : Prop
  | free : ev.fd = 0 → ev.events = 0 → SlotInv s i ev
  | used : ev.fd ≠ 0 → s.epoll ev.fd = some ⟨ev.events, i.castSucc⟩ →
      Conn ev (s.received ev.fd) (s.sent ev.fd) → SlotInv s i ev

/-- **The invariant.** -/
structure Inv (s : State) : Prop where
  listener : Listening (s.myevents (Fin.last eventSize)) s.lfd
  listening : s.epoll s.lfd = some ⟨EPOLLIN, Fin.last eventSize⟩
  holds : Slots.Holds (fds s.myevents) s.clients
  slots : ∀ i : Fin eventSize, SlotInv s i (s.myevents i.castSucc)
  /-- Only descriptors in use are registered. -/
  opened : ∀ fd, s.epoll fd ≠ none → s.Opened fd
  lfd_mem : s.lfd ∈ s.others
  zero_mem : 0 ∈ s.others
  disjoint : ∀ fd ∈ s.clients, fd ∉ s.others

theorem key_of_ne {fd : Fd} (h : fd ≠ 0) : key fd = some fd := if_neg h

theorem key_eq_none_iff {fd : Fd} : key fd = none ↔ fd = 0 := by
  unfold key
  split <;> simp [*]

theorem fds_eq_some_iff {t : Slot → XxEvent} {i : Fin eventSize} {fd : Fd} :
    fds t i = some fd ↔ (t i.castSucc).fd = fd ∧ fd ≠ 0 := by
  rw [fds, key, Option.ite_none_left_eq_some, Option.some.injEq]
  constructor
  · rintro ⟨h0, rfl⟩
    exact ⟨rfl, h0⟩
  · rintro ⟨rfl, h0⟩
    exact ⟨h0, rfl⟩

theorem fds_update (t : Slot → XxEvent) (i : Fin eventSize) (ev : XxEvent) :
    fds (Function.update t i.castSucc ev) = Function.update (fds t) i (key ev.fd) := by
  funext j
  by_cases hji : j = i
  · subst hji
    rw [fds, Function.update_self, Function.update_self]
  · have hcast : j.castSucc ≠ i.castSucc := fun h => hji (Fin.castSucc_injective _ h)
    rw [fds, Function.update_of_ne hcast, Function.update_of_ne hji, fds]

/-- The client of a slot. -/
theorem Inv.mem_clients {s : State} (h : Inv s) {i : Fin eventSize}
    (hi : (s.myevents i.castSucc).fd ≠ 0) : (s.myevents i.castSucc).fd ∈ s.clients :=
  h.holds.mem (fds_eq_some_iff.mpr ⟨rfl, hi⟩)

/-- Two slots do not have the same client. -/
theorem Inv.fd_ne {s : State} (h : Inv s) {i j : Fin eventSize} (hij : j ≠ i)
    (hi : (s.myevents i.castSucc).fd ≠ 0) :
    (s.myevents j.castSucc).fd ≠ (s.myevents i.castSucc).fd := by
  intro heq
  exact hij (h.holds.inj j i _ (fds_eq_some_iff.mpr ⟨heq, hi⟩) (fds_eq_some_iff.mpr ⟨rfl, hi⟩))

/-! ## What a callback does to a slot -/

namespace State

/-- A slot, its registration, and what was read and written on it. -/
def touch (s : State) (i : Fin eventSize) (ev : XxEvent) (received sent : List UInt8) : State :=
  { s with
    myevents := Function.update s.myevents i.castSucc ev
    epoll := Function.update s.epoll ev.fd (some ⟨ev.events, i.castSucc⟩)
    received := Function.update s.received ev.fd received
    sent := Function.update s.sent ev.fd sent }

/-- A slot becomes free, and its descriptor is closed. -/
def release (s : State) (i : Fin eventSize) (fd : Fd) : State :=
  { s with
    myevents := Function.update s.myevents i.castSucc ⟨0, 0, none, Block.zero bufLen, 0⟩
    epoll := Function.update s.epoll fd none
    clients := s.clients.erase fd
    others := s.others.erase fd }

/-- A free slot gets a new client. -/
def adopt (s : State) (i : Fin eventSize) (cfd : Fd) : State :=
  { s with clients := insert cfd s.clients }.touch i
    { s.myevents i.castSucc with fd := cfd, events := EPOLLIN, callBack := some .readData } [] []

end State

variable {s : State}

/-- **The frame rule.**  A callback that writes one slot, and else changes only what belongs
to one descriptor, keeps the invariant if it holds of that slot again and no other slot has
that descriptor. -/
theorem Inv.frame (h : Inv s) {s' : State} (i : Fin eventSize) (ev : XxEvent) (fd : Fd)
    (htable : s'.myevents = Function.update s.myevents i.castSucc ev) (hlfd : s'.lfd = s.lfd)
    (hepoll : ∀ fd', fd' ≠ fd → s'.epoll fd' = s.epoll fd')
    (hreceived : ∀ fd', fd' ≠ fd → s'.received fd' = s.received fd')
    (hsent : ∀ fd', fd' ≠ fd → s'.sent fd' = s.sent fd')
    (hlistener : fd ∉ s.others) (hslots : ∀ j, j ≠ i → (s.myevents j.castSucc).fd ≠ fd)
    (hothers : s'.others = s.others) (hclients : ∀ fd' ∈ s'.clients, fd' ≠ fd → fd' ∈ s.clients)
    (hopened : ∀ fd', s'.epoll fd' ≠ none → s'.Opened fd')
    (hholds : Slots.Holds (Function.update (fds s.myevents) i (key ev.fd)) s'.clients)
    (hslot : SlotInv s' i ev) : Inv s' := by
  have hne : s.lfd ≠ fd := fun heq => hlistener (heq ▸ h.lfd_mem)
  refine ⟨?_, ?_, ?_, ?_, hopened, ?_, ?_, ?_⟩
  · rw [htable, hlfd, Function.update_of_ne (Fin.castSucc_ne_last i).symm]
    exact h.listener
  · rw [hlfd, hepoll _ hne]
    exact h.listening
  · rw [htable, fds_update]
    exact hholds
  · intro j
    rw [htable]
    by_cases hji : j = i
    · subst hji
      rw [Function.update_self]
      exact hslot
    · rw [Function.update_of_ne fun heq => hji (Fin.castSucc_injective _ heq)]
      have hj := hslots j hji
      rcases h.slots j with ⟨h0, hevents⟩ | ⟨h0, hreg, hconn⟩
      · exact .free h0 hevents
      · refine .used h0 ((hepoll _ hj).trans hreg) ?_
        rw [hreceived _ hj, hsent _ hj]
        exact hconn
  · rw [hlfd, hothers]
    exact h.lfd_mem
  · rw [hothers]
    exact h.zero_mem
  · intro fd' hmem
    rw [hothers]
    by_cases hfd : fd' = fd
    · exact hfd ▸ hlistener
    · exact h.disjoint fd' (hclients fd' hmem hfd)

/-- The client of a slot in use changes what it waits for. -/
theorem Inv.touch (h : Inv s) {i : Fin eventSize} {ev : XxEvent} {received sent : List UInt8}
    (hfd : ev.fd = (s.myevents i.castSucc).fd) (hne : ev.fd ≠ 0) (hconn : Conn ev received sent) :
    Inv (s.touch i ev received sent) := by
  have hi : (s.myevents i.castSucc).fd ≠ 0 := hfd ▸ hne
  have hmem : ev.fd ∈ s.clients := hfd ▸ h.mem_clients hi
  refine h.frame i ev ev.fd rfl rfl
    (fun _ hfd' => Function.update_of_ne hfd' _ _) (fun _ hfd' => Function.update_of_ne hfd' _ _)
    (fun _ hfd' => Function.update_of_ne hfd' _ _) (h.disjoint _ hmem)
    (fun j hj => hfd ▸ h.fd_ne hj hi) rfl (fun _ hmem' _ => hmem') ?_ ?_ ?_
  · intro fd' hreg
    by_cases hfd' : fd' = ev.fd
    · exact Or.inr (hfd' ▸ hmem)
    · have hold : (s.touch i ev received sent).epoll fd' = s.epoll fd' :=
        Function.update_of_ne hfd' _ _
      exact h.opened fd' (hold ▸ hreg)
  · have hself : Function.update (fds s.myevents) i (key ev.fd) = fds s.myevents := by
      rw [hfd]
      exact Function.update_eq_self i _
    rw [hself]
    exact h.holds
  · refine .used hne (Function.update_self _ _ _) ?_
    have hreceived : (s.touch i ev received sent).received ev.fd = received :=
      Function.update_self _ _ _
    have hsent : (s.touch i ev received sent).sent ev.fd = sent := Function.update_self _ _ _
    rw [hreceived, hsent]
    exact hconn

/-- The client of a slot in use leaves. -/
theorem Inv.release (h : Inv s) {i : Fin eventSize} {fd : Fd} (hfd : (s.myevents i.castSucc).fd = fd)
    (hne : fd ≠ 0) : Inv (s.release i fd) := by
  have hi : (s.myevents i.castSucc).fd ≠ 0 := hfd ▸ hne
  have hmem : fd ∈ s.clients := hfd ▸ h.mem_clients hi
  have hothers : s.others.erase fd = s.others := Finset.erase_eq_of_notMem (h.disjoint fd hmem)
  refine h.frame i _ fd rfl rfl (fun _ hfd' => Function.update_of_ne hfd' _ _)
    (fun _ _ => rfl) (fun _ _ => rfl) (h.disjoint _ hmem) (fun j hj => hfd ▸ h.fd_ne hj hi) hothers
    (fun _ hmem' _ => Finset.mem_of_mem_erase hmem') ?_ ?_ (.free rfl rfl)
  · intro fd' hreg
    by_cases hfd' : fd' = fd
    · exact absurd (hfd' ▸ Function.update_self _ _ _) hreg
    · have hold : (s.release i fd).epoll fd' = s.epoll fd' := Function.update_of_ne hfd' _ _
      rcases h.opened fd' (hold ▸ hreg) with hother | hclient
      · exact Or.inl (Finset.mem_erase.mpr ⟨hfd', hother⟩)
      · exact Or.inr (Finset.mem_erase.mpr ⟨hfd', hclient⟩)
  · exact h.holds.erase (fds_eq_some_iff.mpr ⟨hfd, hne⟩)

/-- A new client gets a free slot. -/
theorem Inv.adopt (h : Inv s) {i : Fin eventSize} (hfree : (s.myevents i.castSucc).fd = 0) {cfd : Fd}
    (hcfd : ¬ s.Opened cfd) : Inv (s.adopt i cfd) := by
  have hcfd' : cfd ∉ s.others ∧ cfd ∉ s.clients := not_or.mp hcfd
  have hne : cfd ≠ 0 := fun h0 => hcfd'.1 (h0 ▸ h.zero_mem)
  refine h.frame i _ cfd rfl rfl (fun _ hfd' => Function.update_of_ne hfd' _ _)
    (fun _ hfd' => Function.update_of_ne hfd' _ _) (fun _ hfd' => Function.update_of_ne hfd' _ _)
    hcfd'.1 ?_ rfl (fun fd' hmem hfd' => (Finset.mem_insert.mp hmem).resolve_left hfd') ?_ ?_ ?_
  · intro j _ heq
    exact hcfd'.2 (heq ▸ h.mem_clients (heq ▸ hne))
  · intro fd' hreg
    by_cases hfd' : fd' = cfd
    · exact Or.inr (hfd' ▸ Finset.mem_insert_self _ _)
    · have hold : (s.adopt i cfd).epoll fd' = s.epoll fd' := Function.update_of_ne hfd' _ _
      rcases h.opened fd' (hold ▸ hreg) with hother | hclient
      · exact Or.inl hother
      · exact Or.inr (Finset.mem_insert_of_mem hclient)
  · rw [key_of_ne hne]
    exact h.holds.insert (key_eq_none_iff.mpr hfree) hcfd'.2
  · refine .used hne (Function.update_self _ _ _) (.reading rfl rfl ?_)
    show Function.update s.received cfd [] cfd = Function.update s.sent cfd [] cfd
    rw [Function.update_self, Function.update_self]

/-! ## What a callback can do -/

/-- What handling one event can come to. -/
inductive Effect (s : State) (cfd : Fd) : State → Prop
  | idle : Effect s cfd s
  | touch {i : Fin eventSize} {ev : XxEvent} {received sent : List UInt8} :
      ev.fd = (s.myevents i.castSucc).fd → ev.fd ≠ 0 → Conn ev received sent →
      Effect s cfd (s.touch i ev received sent)
  | release {i : Fin eventSize} {fd : Fd} : (s.myevents i.castSucc).fd = fd → fd ≠ 0 →
      Effect s cfd (s.release i fd)
  | adopt {i : Fin eventSize} : (s.myevents i.castSucc).fd = 0 → Effect s cfd (s.adopt i cfd)
  /-- The table is full, and the slot that `initAccept` takes is the listener's. -/
  | overflow : (∀ i : Fin eventSize, (s.myevents i.castSucc).fd ≠ 0) →
      s.firstFree = Fin.last eventSize → Effect s cfd (s.initAccept cfd)

theorem fd_ne_of_freeSlot_eq_none (h : s.freeSlot = none) (i : Fin eventSize) :
    (s.myevents i.castSucc).fd ≠ 0 := of_decide_eq_false (Fin.eq_false_of_find?_eq_none h i)

theorem fd_eq_of_freeSlot_eq_some {i : Fin eventSize} (h : s.freeSlot = some i) :
    (s.myevents i.castSucc).fd = 0 := of_decide_eq_true (Fin.eq_true_of_find?_eq_some h)

theorem firstFree_of_none (h : s.freeSlot = none) : s.firstFree = Fin.last eventSize := by
  unfold State.firstFree
  rw [h]

theorem firstFree_of_some {i : Fin eventSize} (h : s.freeSlot = some i) :
    s.firstFree = i.castSucc := by
  unfold State.firstFree
  rw [h]

theorem initAccept_effect (h : Inv s) {cfd : Fd} (hcfd : ¬ s.Opened cfd) :
    Effect s cfd (s.initAccept cfd) := by
  have hreg : s.epoll cfd = none := by
    by_contra hreg
    exact hcfd (h.opened cfd hreg)
  cases hslot : s.freeSlot with
  | none => exact .overflow (fd_ne_of_freeSlot_eq_none hslot) (firstFree_of_none hslot)
  | some i =>
    have hadopt : s.initAccept cfd = s.adopt i cfd := by
      rw [State.initAccept, firstFree_of_some hslot]
      exact if_pos ⟨Or.inr (Finset.mem_insert_self _ _), hreg⟩
    rw [hadopt]
    exact .adopt (fd_eq_of_freeSlot_eq_some hslot)

/-- `eventset` on the slot of a registered client. -/
theorem eventset_eq {fd : Fd} (hreg : s.epoll fd ≠ none) (events : UInt32) (callBack : Callback)
    (i : Fin eventSize) :
    s.eventset fd events callBack i.castSucc =
      s.touch i { s.myevents i.castSucc with fd := fd, events := events, callBack := some callBack }
        (s.received fd) (s.sent fd) := by
  have hmod : s.eventset fd events callBack i.castSucc = { s with
      myevents := Function.update s.myevents i.castSucc
        { s.myevents i.castSucc with fd := fd, events := events, callBack := some callBack }
      epoll := Function.update s.epoll fd (some ⟨events, i.castSucc⟩) } := if_neg hreg
  rw [hmod, State.touch, Function.update_eq_self, Function.update_eq_self]

/-- A client that waits for data, and what its read comes to. -/
theorem readData_effect {i : Fin eventSize} {ev : XxEvent} (hev : s.myevents i.castSucc = ev)
    (hne : ev.fd ≠ 0) (hreg : s.epoll ev.fd = some ⟨ev.events, i.castSucc⟩)
    (hevents : ev.events = EPOLLIN) (hcall : ev.callBack = some .readData)
    (hbytes : s.received ev.fd = s.sent ev.fd) (cfd : Fd) (r : ReadResult bufLen) :
    Effect s cfd (s.readData ev.fd i.castSucc r) := by
  have hfd : ev.fd = (s.myevents i.castSucc).fd := congrArg XxEvent.fd hev.symm
  cases r with
  | data bytes hne' hlen =>
    have htouch : s.readData ev.fd i.castSucc (.data bytes hne' hlen) =
        s.touch i
          { fd := ev.fd, events := EPOLLOUT, callBack := some .senddata
            buf := ev.buf.storeFront bytes hlen, buflen := bytes.length }
          (s.received ev.fd ++ bytes) (s.sent ev.fd) := by
      rw [State.readData, eventset_eq (by simp [State.setEvent, hreg])]
      simp [State.touch, State.setEvent, hev]
    rw [htouch]
    refine .touch hfd hne (.writing rfl rfl ?_ ?_ ?_)
    · exact Int.natCast_pos.mpr (List.length_pos_iff.mpr hne')
    · exact Int.ofNat_le.mpr hlen
    · rw [hbytes, Int.toNat_natCast, Block.take_storeFront]
  | eof =>
    have hrelease : s.readData ev.fd i.castSucc .eof = s.release i ev.fd := by
      simp [State.readData, State.release, State.eventdel, State.close, State.setEvent,
        State.epollCtlDel]
    rw [hrelease]
    exact .release hfd.symm hne
  | fail errno =>
    have htouch : s.readData ev.fd i.castSucc (.fail errno) =
        s.touch i { ev with buflen := -1 } (s.received ev.fd) (s.sent ev.fd) := by
      simp [State.readData, State.touch, State.setEvent, hev, ← hreg]
    rw [htouch]
    exact .touch hfd hne (.reading hevents hcall hbytes)

/-- A client that waits to be written to. -/
theorem senddata_effect {i : Fin eventSize} {ev : XxEvent} (hev : s.myevents i.castSucc = ev)
    (hne : ev.fd ≠ 0) (hreg : s.epoll ev.fd = some ⟨ev.events, i.castSucc⟩) (hpos : 0 < ev.buflen)
    (hle : ev.buflen ≤ bufLen)
    (hbytes : s.received ev.fd = s.sent ev.fd ++ ev.buf.toList.take ev.buflen.toNat) (cfd : Fd) :
    ∃ s', s.senddata ev.fd i.castSucc = some s' ∧ Effect s cfd s' := by
  have hload : ev.buf.load 0 ev.buflen.toNat = some (ev.buf.toList.take ev.buflen.toNat) :=
    Block.load_eq_some (by omega)
  have htouch : s.senddata ev.fd i.castSucc =
      some (s.touch i { ev with events := EPOLLIN, callBack := some .readData } (s.received ev.fd)
        (s.sent ev.fd ++ ev.buf.toList.take ev.buflen.toNat)) := by
    rw [State.senddata, hev, if_pos hpos.le, hload, Option.map_some, eventset_eq (by simp [hreg])]
    simp [State.touch, hev]
  have hfd : ev.fd = (s.myevents i.castSucc).fd := congrArg XxEvent.fd hev.symm
  exact ⟨_, htouch, .touch hfd hne (.reading rfl rfl hbytes)⟩

/-- **What handling an event can do**, and that it can always be done. -/
theorem dispatch_cases (h : Inv s) (ev : EpollEvent) {k : Kernel} (hk : ¬ s.Opened k.accept) :
    ∃ s', s.dispatch ev k = some s' ∧ Effect s k.accept s' := by
  unfold State.dispatch
  dsimp only
  split
  · rename_i hmask
    -- whose slot is it?
    rcases Fin.eq_castSucc_or_eq_last ev.ptr with ⟨i, hi⟩ | hlast
    · rw [hi] at hmask ⊢
      rcases h.slots i with ⟨-, h0⟩ | ⟨hne, hreg, hconn⟩
      · rw [h0, UInt32.zero_and] at hmask
        exact absurd rfl hmask
      · rcases hconn with ⟨hevents, hcall, hbytes⟩ | ⟨-, hcall, hpos, hle, hbytes⟩
        · rw [hcall]
          exact ⟨_, rfl, readData_effect rfl hne hreg hevents hcall hbytes _ _⟩
        · rw [hcall]
          exact senddata_effect rfl hne hreg hpos hle hbytes _
    · rw [hlast, h.listener.callBack]
      exact ⟨_, rfl, initAccept_effect h hk⟩
  · exact ⟨s, rfl, .idle⟩

/-! ## Runs -/

theorem inv_start {lfd : Fd} {others : Finset Fd} (h0 : 0 ∈ others) (hlfd : lfd ∈ others) :
    Inv (State.start lfd others) := by
  have hstart : State.start lfd others =
      { myevents := Function.update (fun _ => ⟨0, 0, none, Block.zero bufLen, 0⟩)
          (Fin.last eventSize) ⟨lfd, EPOLLIN, some .initAccept, Block.zero bufLen, 0⟩
        lfd := lfd
        epoll := Function.update (fun _ => none) lfd (some ⟨EPOLLIN, Fin.last eventSize⟩)
        ready := []
        others := others
        clients := ∅
        received := fun _ => []
        sent := fun _ => [] } := if_pos ⟨Or.inl hlfd, rfl⟩
  have hslot : ∀ i : Fin eventSize, (State.start lfd others).myevents i.castSucc =
      ⟨0, 0, none, Block.zero bufLen, 0⟩ := by
    intro i
    rw [hstart]
    dsimp only
    rw [Function.update_of_ne (Fin.castSucc_ne_last i)]
  have hfds : fds (State.start lfd others).myevents = fun _ => none := by
    funext i
    rw [fds, hslot]
    rfl
  refine ⟨?_, ?_, ?_, ?_, ?_, ?_, ?_, ?_⟩
  · rw [hstart]
    dsimp only
    rw [Function.update_self]
    exact ⟨rfl, rfl, rfl⟩
  · rw [hstart]
    dsimp only
    rw [Function.update_self]
  · rw [hfds, hstart]
    exact Slots.Holds.empty
  · intro i
    rw [hslot]
    exact .free rfl rfl
  · intro fd hreg
    rw [hstart] at hreg ⊢
    by_cases hfd : fd = lfd
    · exact Or.inl (hfd ▸ hlfd)
    · dsimp only at hreg
      rw [Function.update_of_ne hfd] at hreg
      exact absurd rfl hreg
  · rw [hstart]
    exact hlfd
  · rw [hstart]
    exact h0
  · rw [hstart]
    intro fd hmem
    exact absurd hmem (Finset.notMem_empty fd)

/-- The batch is not part of the invariant. -/
theorem Inv.setReady (h : Inv s) (ready : List EpollEvent) : Inv { s with ready := ready } :=
  ⟨h.listener, h.listening, h.holds, fun i => by
    rcases h.slots i with ⟨h0, hevents⟩ | ⟨h0, hreg, hconn⟩
    · exact .free h0 hevents
    · exact .used h0 hreg hconn, h.opened, h.lfd_mem, h.zero_mem, h.disjoint⟩

/-- There is a free slot exactly if there are fewer than 1024 clients. -/
theorem Inv.exists_free_iff (h : Inv s) :
    (∃ i : Fin eventSize, (s.myevents i.castSucc).fd = 0) ↔ s.clients.card < eventSize := by
  rw [← h.holds.exists_free_iff]
  exact exists_congr fun i => key_eq_none_iff.symm

/-- With one client more than slots, the last slot is not the listener's any more. -/
theorem overflow_initAccept (h : Inv s) {cfd : Fd} (hcfd : ¬ s.Opened cfd)
    (hfull : ∀ i : Fin eventSize, (s.myevents i.castSucc).fd ≠ 0)
    (hlast : s.firstFree = Fin.last eventSize) :
    ¬ Listening ((s.initAccept cfd).myevents (Fin.last eventSize)) (s.initAccept cfd).lfd ∧
      eventSize < (s.initAccept cfd).clients.card := by
  have hcfd' : cfd ∉ s.others ∧ cfd ∉ s.clients := not_or.mp hcfd
  have hreg : s.epoll cfd = none := by
    by_contra hreg
    exact hcfd (h.opened cfd hreg)
  have heq : s.initAccept cfd = { s with
      clients := insert cfd s.clients
      received := Function.update s.received cfd []
      sent := Function.update s.sent cfd []
      myevents := Function.update s.myevents (Fin.last eventSize)
        { s.myevents (Fin.last eventSize) with
          fd := cfd, events := EPOLLIN, callBack := some .readData }
      epoll := Function.update s.epoll cfd (some ⟨EPOLLIN, Fin.last eventSize⟩) } := by
    rw [State.initAccept, hlast]
    exact if_pos ⟨Or.inr (Finset.mem_insert_self _ _), hreg⟩
  rw [heq]
  dsimp only
  rw [Function.update_self, Finset.card_insert_of_notMem hcfd'.2]
  constructor
  · intro hlistening
    cases hlistening.callBack
  · have hnot : ¬ s.clients.card < eventSize := by
      rw [← h.exists_free_iff]
      rintro ⟨i, hi⟩
      exact hfull i hi
    omega

/-- **One step**: as long as there are at most 1024 clients afterwards, the invariant is kept;
otherwise the listener's slot is lost. -/
theorem Inv.step (h : Inv s) {l : Label} {s' : State} (hstep : Step s l s') :
    Inv s' ∨ ¬ Listening (s'.myevents (Fin.last eventSize)) s'.lfd ∧ eventSize < s'.clients.card := by
  cases hstep with
  | wait _ _ _ _ => exact Or.inl (h.setReady _)
  | @handle ev rest k s' hready _ hk hd =>
    have h' := h.setReady rest
    obtain ⟨s'', hd', heffect⟩ := dispatch_cases h' ev (k := k) hk
    cases hd'.symm.trans hd
    cases heffect with
    | idle => exact Or.inl h'
    | touch hfd hne hconn => exact Or.inl (h'.touch hfd hne hconn)
    | release hfd hne => exact Or.inl (h'.release hfd hne)
    | adopt hfree => exact Or.inl (h'.adopt hfree hk)
    | overflow hfull hlast => exact Or.inr (overflow_initAccept h' hk hfull hlast)

/-- At most 1024 clients at any moment. -/
def Within (_ : State) (_ : Label) (s' : State) : Prop := s'.clients.card ≤ eventSize

/-- The invariant holds in every run in which there are never more than 1024 clients. -/
theorem inv_of_reachable (h : (server.restrict Within).Reachable s) : Inv s := by
  refine h.invariant (P := Inv) ?_ ?_
  · rintro s ⟨lfd, others, h0, hlfd, rfl⟩
    exact inv_start h0 hlfd
  · rintro s l s' hs ⟨hstep, hwithin⟩
    rcases hs.step hstep with hs' | ⟨-, hmany⟩
    · exact hs'
    · exact absurd hwithin (not_le.mpr hmany)

/-! ## The echo -/

/-- What a slot still has to write back. -/
def pending (ev : XxEvent) : List UInt8 :=
  if ev.events = EPOLLOUT then ev.buf.toList.take ev.buflen.toNat else []

theorem Conn.received_eq {ev : XxEvent} {received sent : List UInt8} (h : Conn ev received sent) :
    received = sent ++ pending ev := by
  cases h with
  | reading hevents _ hbytes =>
    rw [pending, hevents, if_neg (by decide), List.append_nil]
    exact hbytes
  | writing hevents _ _ _ hbytes =>
    rw [pending, if_pos hevents]
    exact hbytes

/-- The slot of a client. -/
theorem Inv.exists_slot (h : Inv s) {fd : Fd} (hfd : fd ∈ s.clients) :
    ∃ i : Fin eventSize, (s.myevents i.castSucc).fd = fd ∧
      s.epoll fd = some ⟨(s.myevents i.castSucc).events, i.castSucc⟩ ∧
      s.received fd = s.sent fd ++ pending (s.myevents i.castSucc) := by
  obtain ⟨i, hi⟩ := (h.holds.mem_iff fd).mp hfd
  obtain ⟨rfl, hne⟩ := fds_eq_some_iff.mp hi
  rcases h.slots i with ⟨h0, -⟩ | ⟨-, hreg, hconn⟩
  · exact absurd h0 hne
  · exact ⟨i, rfl, hreg, hconn.received_eq⟩

/-- **The echo is isolated.**  In every run in which there are never more than 1024 clients,
the clients have different slots of the table, and what was read from a client is what was
written back to it, followed by what its slot has in its buffer if it waits to write. -/
theorem echo_isolated (h : (server.restrict Within).Reachable s) :
    ∃ slot : Fd → Fin eventSize, Set.InjOn slot s.clients ∧ ∀ fd ∈ s.clients,
      (s.myevents (slot fd).castSucc).fd = fd ∧
      s.epoll fd = some ⟨(s.myevents (slot fd).castSucc).events, (slot fd).castSucc⟩ ∧
      s.received fd = s.sent fd ++ pending (s.myevents (slot fd).castSucc) := by
  have hinv := inv_of_reachable h
  have hslot : ∀ fd, ∃ i : Fin eventSize, fd ∈ s.clients → (s.myevents i.castSucc).fd = fd ∧
      s.epoll fd = some ⟨(s.myevents i.castSucc).events, i.castSucc⟩ ∧
      s.received fd = s.sent fd ++ pending (s.myevents i.castSucc) := by
    intro fd
    by_cases hfd : fd ∈ s.clients
    · obtain ⟨i, hi⟩ := hinv.exists_slot hfd
      exact ⟨i, fun _ => hi⟩
    · exact ⟨⟨0, by decide⟩, fun hmem => absurd hmem hfd⟩
  choose slot hslot using hslot
  refine ⟨slot, ?_, hslot⟩
  intro fd hfd fd' hfd' heq
  rw [← (hslot fd hfd).1, ← (hslot fd' hfd').1, heq]

/-! ## The table -/

/-- The last slot is the listener's, and each client that is registered points to a slot of
its own before it. -/
def Keeps (s : State) : Prop :=
  Listening (s.myevents (Fin.last eventSize)) s.lfd ∧
    ∀ fd ∈ s.clients, ∀ reg, s.epoll fd = some reg →
      ∃ i : Fin eventSize, reg.ptr = i.castSucc ∧ (s.myevents reg.ptr).fd = fd

theorem Inv.keeps (h : Inv s) : Keeps s := by
  refine ⟨h.listener, fun fd hfd reg hreg => ?_⟩
  obtain ⟨i, hi, hreg', -⟩ := h.exists_slot hfd
  cases hreg.symm.trans hreg'
  exact ⟨i, rfl, hi⟩

/-- **How long the listener keeps its slot.**  In every run in which there are never more than
1024 clients the table is kept; and the step that lets in one more, from any state of such a
run, loses it. -/
theorem keeps_listener (h : (server.restrict Within).Reachable s) :
    Keeps s ∧ ∀ l s', server.step s l s' → (Keeps s' ↔ s'.clients.card ≤ eventSize) := by
  have hinv := inv_of_reachable h
  refine ⟨hinv.keeps, fun l s' hstep => ?_⟩
  rcases hinv.step hstep with hs' | ⟨hlost, hmany⟩
  · exact iff_of_true hs'.keeps hs'.holds.card_le
  · exact iff_of_false (fun hkeeps => hlost hkeeps.1) (not_le.mpr hmany)

/-! ## Runs with many clients -/

/-- `epoll_wait` reports one descriptor. -/
theorem reachable_wait (h : (server.restrict Within).Reachable s) (hready : s.ready = []) {fd : Fd}
    {reg : EpollEvent} (hreg : s.epoll fd = some reg) (events : UInt32) :
    (server.restrict Within).Reachable { s with ready := [⟨events, reg.ptr⟩] } := by
  have hreport : report s [(fd, events)] = [⟨events, reg.ptr⟩] := by simp [report, hreg]
  have hstep : Step s (.wait [(fd, events)]) { s with ready := report s [(fd, events)] } :=
    .wait hready (by simp) (by simp) (by simp [hreg])
  rw [hreport] at hstep
  exact h.step ⟨hstep, (inv_of_reachable h).holds.card_le⟩

/-- A client connects to an idle server. -/
theorem step_accept (hinv : Inv s) {cfd : Fd} (hpos : 0 ≤ cfd) (hcfd : ¬ s.Opened cfd) :
    server.step { s with ready := [⟨EPOLLIN, Fin.last eventSize⟩] } (.handle ⟨cfd, .eof⟩)
      (State.initAccept { s with ready := [] } cfd) := by
  have hready : ({ s with ready := [⟨EPOLLIN, Fin.last eventSize⟩] } : State).ready =
      [⟨EPOLLIN, Fin.last eventSize⟩] := rfl
  refine .handle hready hpos hcfd ?_
  have hlistener := hinv.listener
  unfold State.dispatch
  dsimp only
  rw [hlistener.events, hlistener.callBack, if_pos (by decide)]

/-- Some descriptors. -/
def nextFd (n : ℕ) : Fd := ((n + 5 : ℕ) : ℤ)

theorem nextFd_nonneg (n : ℕ) : 0 ≤ nextFd n := Int.natCast_nonneg _

theorem nextFd_injective : Function.Injective nextFd := by
  intro j k hjk
  have hjk' : ((j + 5 : ℕ) : ℤ) = ((k + 5 : ℕ) : ℤ) := hjk
  omega

/-- The clients that have them, one after the other. -/
def firstClients (n : ℕ) : Finset Fd := (Finset.range n).image nextFd

theorem firstClients_succ (n : ℕ) :
    firstClients (n + 1) = insert (nextFd n) (firstClients n) := by
  rw [firstClients, Finset.range_add_one, Finset.image_insert, firstClients]

theorem notMem_firstClients (n : ℕ) : (nextFd n) ∉ firstClients n := by
  intro h
  obtain ⟨k, hk, heq⟩ := Finset.mem_image.mp h
  rw [nextFd_injective heq] at hk
  exact absurd hk Finset.notMem_range_self

theorem card_firstClients (n : ℕ) : (firstClients n).card = n := by
  rw [firstClients, Finset.card_image_of_injective _ nextFd_injective, Finset.card_range]

/-- The next descriptor is free. -/
theorem not_opened_next {n : ℕ} (hothers : s.others = {0, 3}) (hclients : s.clients = firstClients n) :
    ¬ s.Opened (nextFd n) := by
  rintro (hmem | hmem)
  · rw [hothers, Finset.mem_insert, Finset.mem_singleton] at hmem
    have hne : ((n + 5 : ℕ) : ℤ) ≠ 0 ∧ ((n + 5 : ℕ) : ℤ) ≠ 3 := by omega
    exact hmem.elim hne.1 hne.2
  · exact notMem_firstClients n (hclients ▸ hmem)

/-- What `initAccept` does to the descriptors and their bytes. -/
theorem initAccept_clients (s : State) (cfd : Fd) :
    (s.initAccept cfd).clients = insert cfd s.clients ∧ (s.initAccept cfd).others = s.others ∧
      (s.initAccept cfd).ready = s.ready ∧
      (s.initAccept cfd).received = Function.update s.received cfd [] ∧
      (s.initAccept cfd).sent = Function.update s.sent cfd [] := by
  unfold State.initAccept State.eventadd State.epollCtlAdd
  split <;> exact ⟨rfl, rfl, rfl, rfl, rfl⟩

/-- There is a run for each number of clients the table has slots for. -/
theorem exists_run (n : ℕ) (hn : n ≤ eventSize) :
    ∃ s, (server.restrict Within).Reachable s ∧ s.ready = [] ∧ s.others = {0, 3} ∧
      s.clients = firstClients n ∧ s.received = (fun _ => []) ∧ s.sent = fun _ => [] := by
  induction n with
  | zero =>
    exact ⟨State.start 3 {0, 3}, .init ⟨3, {0, 3}, by decide, by decide, rfl⟩, rfl, rfl, rfl, rfl, rfl⟩
  | succ n ih =>
    obtain ⟨s, hs, hready, hothers, hclients, hreceived, hsent⟩ := ih (Nat.le_of_succ_le hn)
    have hinv := inv_of_reachable hs
    have hwait := reachable_wait hs hready hinv.listening EPOLLIN
    have hstep := step_accept hinv (nextFd_nonneg n) (not_opened_next hothers hclients)
    obtain ⟨hclients', hothers', hready', hreceived', hsent'⟩ :=
      initAccept_clients { s with ready := [] } (nextFd n)
    have hclients'' : (State.initAccept { s with ready := [] } (nextFd n)).clients =
        firstClients (n + 1) := by rw [hclients', firstClients_succ, hclients]
    have hwithin : (State.initAccept { s with ready := [] } (nextFd n)).clients.card ≤
        eventSize := by rw [hclients'', card_firstClients]; exact hn
    refine ⟨_, hwait.step ⟨hstep, hwithin⟩, hready', hothers'.trans hothers, hclients'', ?_, ?_⟩
    · rw [hreceived']
      show Function.update s.received (nextFd n) [] = _
      rw [hreceived, Function.update_eq_self]
    · rw [hsent']
      show Function.update s.sent (nextFd n) [] = _
      rw [hsent, Function.update_eq_self]

/-- `eventset` touches the table and the interest list only. -/
theorem eventset_frame (s : State) (fd : Fd) (events : UInt32) (callBack : Callback) (i : Slot) :
    ∃ myevents epoll, s.eventset fd events callBack i =
      { s with myevents := myevents, epoll := epoll } := by
  unfold State.eventset State.epollCtlMod State.setEvent
  split <;> exact ⟨_, _, rfl⟩

/-- A client has something to read. -/
theorem exists_read (h : (server.restrict Within).Reachable s) (hready : s.ready = []) {fd cfd : Fd}
    (hfd : fd ∈ s.clients) (hpos : 0 ≤ cfd) (hcfd : ¬ s.Opened cfd)
    (hechoed : s.received fd = s.sent fd) (bytes : List UInt8) (hne : bytes ≠ [])
    (hlen : bytes.length ≤ bufLen) :
    ∃ s', (server.restrict Within).Reachable s' ∧ s'.ready = [] ∧ s'.others = s.others ∧
      s'.clients = s.clients ∧ s'.sent = s.sent ∧
      s'.received = Function.update s.received fd (s.received fd ++ bytes) := by
  have hinv := inv_of_reachable h
  obtain ⟨i, hi⟩ := (hinv.holds.mem_iff fd).mp hfd
  obtain ⟨rfl, hzero⟩ := fds_eq_some_iff.mp hi
  rcases hinv.slots i with ⟨h0, -⟩ |
    ⟨-, hreg, (⟨hevents, hcall, -⟩ | ⟨-, -, hbuf, hle, hbytes⟩)⟩
  · exact absurd h0 hzero
  · have hwait := reachable_wait h hready hreg EPOLLIN
    obtain ⟨_, _, hset⟩ := eventset_frame
      { (State.setEvent { s with ready := [] } i.castSucc
          { s.myevents i.castSucc with
            buf := (s.myevents i.castSucc).buf.storeFront bytes hlen, buflen := bytes.length }) with
        received := Function.update s.received (s.myevents i.castSucc).fd
          (s.received (s.myevents i.castSucc).fd ++ bytes) }
      (s.myevents i.castSucc).fd EPOLLOUT .senddata i.castSucc
    have hdispatch : State.dispatch { s with ready := [] } ⟨EPOLLIN, i.castSucc⟩
        ⟨cfd, .data bytes hne hlen⟩ = some (State.readData { s with ready := [] }
          (s.myevents i.castSucc).fd i.castSucc (.data bytes hne hlen)) := by
      unfold State.dispatch
      dsimp only
      rw [hevents, hcall, if_pos (by decide)]
    have hstep : Step { s with ready := [⟨EPOLLIN, i.castSucc⟩] } (.handle ⟨cfd, .data bytes hne hlen⟩)
        (State.readData { s with ready := [] } (s.myevents i.castSucc).fd i.castSucc
          (.data bytes hne hlen)) := .handle rfl hpos hcfd hdispatch
    have hread : State.readData { s with ready := [] } (s.myevents i.castSucc).fd i.castSucc
        (.data bytes hne hlen) = _ := hset
    rw [hread] at hstep
    exact ⟨_, hwait.step ⟨hstep, hinv.holds.card_le⟩, rfl, rfl, rfl, rfl, rfl⟩
  · -- a slot that waits to write has received more than it has sent
    have hlength := congrArg List.length (hechoed.symm.trans hbytes)
    rw [List.length_append, List.length_take, List.Vector.toList_length] at hlength
    omega

/-- A client is written to what it has sent. -/
theorem exists_written (h : (server.restrict Within).Reachable s) (hready : s.ready = [])
    {fd cfd : Fd} (hfd : fd ∈ s.clients) (hpos : 0 ≤ cfd) (hcfd : ¬ s.Opened cfd)
    (howed : s.received fd ≠ s.sent fd) :
    ∃ s', (server.restrict Within).Reachable s' ∧ s'.ready = [] ∧ s'.others = s.others ∧
      s'.clients = s.clients ∧ s'.received = s.received ∧
      s'.sent = Function.update s.sent fd (s.received fd) := by
  have hinv := inv_of_reachable h
  obtain ⟨i, hi⟩ := (hinv.holds.mem_iff fd).mp hfd
  obtain ⟨rfl, hzero⟩ := fds_eq_some_iff.mp hi
  rcases hinv.slots i with ⟨h0, -⟩ |
    ⟨-, hreg, (⟨-, -, hbytes⟩ | ⟨hevents, hcall, hbuf, hle, hbytes⟩)⟩
  · exact absurd h0 hzero
  · exact absurd hbytes howed
  · have hwait := reachable_wait h hready hreg EPOLLOUT
    have hload : (s.myevents i.castSucc).buf.load 0 (s.myevents i.castSucc).buflen.toNat =
        some ((s.myevents i.castSucc).buf.toList.take (s.myevents i.castSucc).buflen.toNat) :=
      Block.load_eq_some (by omega)
    obtain ⟨_, _, hset⟩ := eventset_frame
      { s with
        ready := []
        sent := Function.update s.sent (s.myevents i.castSucc).fd (s.sent (s.myevents i.castSucc).fd ++
          (s.myevents i.castSucc).buf.toList.take (s.myevents i.castSucc).buflen.toNat) }
      (s.myevents i.castSucc).fd EPOLLIN .readData i.castSucc
    have hdispatch : State.dispatch { s with ready := [] } ⟨EPOLLOUT, i.castSucc⟩ ⟨cfd, .eof⟩ =
        some (State.eventset { s with
          ready := []
          sent := Function.update s.sent (s.myevents i.castSucc).fd
            (s.sent (s.myevents i.castSucc).fd ++
              (s.myevents i.castSucc).buf.toList.take (s.myevents i.castSucc).buflen.toNat) }
          (s.myevents i.castSucc).fd EPOLLIN .readData i.castSucc) := by
      unfold State.dispatch State.senddata
      dsimp only
      rw [hevents, hcall, if_pos (by decide)]
      dsimp only
      rw [if_pos hbuf.le, hload, Option.map_some]
    rw [hset] at hdispatch
    have hstep : Step { s with ready := [⟨EPOLLOUT, i.castSucc⟩] } (.handle ⟨cfd, .eof⟩) _ :=
      .handle rfl hpos hcfd hdispatch
    refine ⟨_, hwait.step ⟨hstep, hinv.holds.card_le⟩, rfl, rfl, rfl, rfl, ?_⟩
    exact congrArg (Function.update s.sent _) hbytes.symm

/-- A run with three clients: one has got back what it sent, the next has sent something and
not yet got it back. -/
theorem exists_echoing : ∃ s : State, (server.restrict Within).Reachable s ∧
    s.clients = firstClients 3 ∧ s.received (nextFd 0) = [104, 105] ∧ s.sent (nextFd 0) = [104, 105] ∧
    s.received (nextFd 1) = [33] ∧ s.sent (nextFd 1) = [] := by
  obtain ⟨s, hs, hready, hothers, hclients, hreceived, hsent⟩ := exists_run 3 (by decide)
  have hfree {t : State} (ho : t.others = s.others) (hc : t.clients = s.clients) :
      ¬ t.Opened (nextFd 3) := not_opened_next (ho.trans hothers) (hc.trans hclients)
  have hmem (k : ℕ) (hk : k < 3) : nextFd k ∈ firstClients 3 :=
    Finset.mem_image_of_mem _ (Finset.mem_range.mpr hk)
  have hne : nextFd 1 ≠ nextFd 0 := by decide
  obtain ⟨t, ht, hready₁, hothers₁, hclients₁, hsent₁, hreceived₁⟩ := exists_read hs hready
    (hclients ▸ hmem 0 (by decide)) (nextFd_nonneg 3) (hfree rfl rfl) (by rw [hreceived, hsent])
    [104, 105] (by decide) (by decide)
  obtain ⟨u, hu, hready₂, hothers₂, hclients₂, hreceived₂, hsent₂⟩ := exists_written ht hready₁
    (hclients₁ ▸ hclients ▸ hmem 0 (by decide)) (nextFd_nonneg 3) (hfree hothers₁ hclients₁)
    (by rw [hreceived₁, hsent₁, hreceived, hsent, Function.update_self]; decide)
  have hothers₂' := hothers₂.trans hothers₁
  have hclients₂' := hclients₂.trans hclients₁
  obtain ⟨v, hv, -, -, hclients₃, hsent₃, hreceived₃⟩ := exists_read hu hready₂
    (hclients₂' ▸ hclients ▸ hmem 1 (by decide)) (nextFd_nonneg 3) (hfree hothers₂' hclients₂')
    (by rw [hreceived₂, hsent₂, hreceived₁, hsent₁, Function.update_of_ne hne,
          Function.update_of_ne hne, hreceived, hsent])
    [33] (by decide) (by decide)
  refine ⟨v, hv, hclients₃.trans (hclients₂'.trans hclients), ?_, ?_, ?_, ?_⟩
  · rw [hreceived₃, Function.update_of_ne hne.symm, hreceived₂, hreceived₁, Function.update_self,
      hreceived]
    rfl
  · rw [hsent₃, hsent₂, Function.update_self, hreceived₁, Function.update_self, hreceived]
    rfl
  · rw [hreceived₃, Function.update_self, hreceived₂, hreceived₁, Function.update_of_ne hne, hreceived]
    rfl
  · rw [hsent₃, hsent₂, Function.update_of_ne hne, hsent₁, hsent]

theorem echo_isolated_three : ∃ s : State, s.clients = firstClients 3 ∧
    s.received (nextFd 0) = [104, 105] ∧ s.sent (nextFd 0) = [104, 105] ∧
    s.received (nextFd 1) = [33] ∧ s.sent (nextFd 1) = [] ∧
    ∃ slot : Fd → Fin eventSize, Set.InjOn slot s.clients ∧ ∀ fd ∈ s.clients,
      (s.myevents (slot fd).castSucc).fd = fd ∧
      s.epoll fd = some ⟨(s.myevents (slot fd).castSucc).events, (slot fd).castSucc⟩ ∧
      s.received fd = s.sent fd ++ pending (s.myevents (slot fd).castSucc) := by
  obtain ⟨s, hs, hclients, hreceived, hsent, hreceived', hsent'⟩ := exists_echoing
  exact ⟨s, hclients, hreceived, hsent, hreceived', hsent', echo_isolated hs⟩

theorem keeps_listener_full : ∃ s : State, s.clients = firstClients eventSize ∧ Keeps s := by
  obtain ⟨s, hs, -, -, hclients, -, -⟩ := exists_run eventSize le_rfl
  exact ⟨s, hclients, (keeps_listener hs).1⟩

/-- The client after the last one gets the slot of the listener. -/
theorem not_keeps_overflow : ∃ s, server.Reachable s ∧ s.clients = firstClients (eventSize + 1) ∧
    ¬ Keeps s := by
  obtain ⟨s, hs, hready, hothers, hclients, -, -⟩ := exists_run eventSize le_rfl
  have hinv := inv_of_reachable hs
  have hcfd := not_opened_next hothers hclients
  have hwait := reachable_wait hs hready hinv.listening EPOLLIN
  have hstep := step_accept hinv (nextFd_nonneg eventSize) hcfd
  obtain ⟨hclients', -⟩ := initAccept_clients { s with ready := [] } (nextFd eventSize)
  have hmany : (State.initAccept { s with ready := [] } (nextFd eventSize)).clients =
      firstClients (eventSize + 1) := by rw [hclients', firstClients_succ, hclients]
  refine ⟨_, hwait.of_restrict.step hstep, hmany, fun hkeeps => ?_⟩
  rcases (inv_of_reachable hwait).step hstep with hinv' | ⟨hlost, -⟩
  · -- the table has no room for that many
    have hle := hinv'.holds.card_le
    rw [hmany, card_firstClients] at hle
    omega
  · exact hlost hkeeps.1

end EpollReactor
end UnixNetwork
