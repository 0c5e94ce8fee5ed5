import UnixNetwork.WebSocket.Reactor

/-!
# What holds of the C server's event loop in every reachable state

The callback pointer of an item, the interest registered for its descriptor and
its status are written by five functions, each on its own.  This file shows that
they stay in step, by saying once what a single callback can do.

## One callback

`call_cases` is the inversion lemma: from a state that satisfies the invariant, a
callback either leaves the state alone, rewrites its own item and its own
registration together (`touch`), gives its item and descriptor back (`release`),
or takes a new item and a new descriptor (`adopt`) --- or it stops, and then only
because `handshark` left one of its arrays.  `Inv.touch`, `Inv.release` and
`Inv.adopt` say that each of these keeps the invariant, and nothing else about
the code is looked at after that.

## The invariant

`Inv` says that the interest list and the live items are two views of the same
set of connections, with the interest of each given by its callback
(`interestOf`); that the events still to be handled belong to distinct live items
and ask for nothing their callback is not there for; and, through `ConnInv`, what
a connection has sent so far: nothing before the handshake is answered, and
afterwards the `101` response followed by one reply for each chunk that
`transform` was run on, the last of them possibly still in `sendbuffer`.

`reply` is a function of the chunk alone.  That is where `recvbuffer` being all
zero whenever data can be read is used.
-/

namespace UnixNetwork
namespace WebSocket
namespace EpollWebsocketC

open Bytes Rfc6455

/-! ## The reply to a chunk -/

/-- The reply to a chunk: with the chunk padded by zero bytes and `L` the low
seven bits of its second byte, a text frame header that gives `L` (or `0` if `L`
is not a seven-bit length) and `L` bytes unmasked with the four bytes from offset
`2` on. -/
def reply (chunk : List UInt8) : List UInt8 :=
  let b := padTo bufferLength chunk
  let L := (b.getD 1 0).toNat % 128
  0x81 :: (if L < 126 then UInt8.ofNat L else 0) ::
    (List.range L).map fun i => b.getD (6 + i) 0 ^^^ b.getD (2 + i % 4) 0

/-- Unmasking, written out by position. -/
theorem applyMask_keyOf (l : List UInt8) {k : ℕ} (h : 6 + k ≤ l.length) :
    applyMask (keyOf (l.drop 2)) ((l.drop 6).take k) =
      (List.range k).map fun i => l.getD (6 + i) 0 ^^^ l.getD (2 + i % 4) 0 := by
  apply List.ext_getElem
  · rw [length_applyMask, List.length_take, List.length_drop, List.length_map, List.length_range]
    omega
  · intro i h₁ h₂
    have hi : i < k := by simpa using h₂
    have h6 : l.getD (6 + i) 0 = l[6 + i] := List.getD_eq_getElem _ _ (by omega)
    have h2 : (l.drop 2).getD (i % 4) 0 = l.getD (2 + i % 4) 0 := by
      rw [List.getD_eq_getElem?_getD, List.getElem?_drop, ← List.getD_eq_getElem?_getD]
    rw [getElem_applyMask _ _ i (by simpa using h₁), List.getElem_map, List.getElem_range,
      List.getElem_take, List.getElem_drop, h6, ← h2]
    rfl

theorem length_reply (chunk : List UInt8) :
    (reply chunk).length = shortLength (padTo bufferLength chunk) + 2 := by
  simp [reply, shortLength]

/-- **`decode_packet` and `encode_packet` in one piece.**  On a buffer that holds
a chunk and zero bytes after it, every access of the two stays inside the two
buffers, and what they leave in front of `sendbuffer` is the reply. -/
theorem encode_decode_eq {recvbuffer : Block UInt8 bufferLength} {chunk : List UInt8}
    (sendbuffer : Block UInt8 bufferLength) (rlength : ℤ) (hchunk : chunk.length ≤ bufferLength)
    (h : recvbuffer.toList = padTo bufferLength chunk) :
    ∃ d b, decodePacket recvbuffer rlength = some d ∧
      encodePacket sendbuffer d.mask (d.stream.toList.drop d.data) d.ret =
        some (b, (shortLength (padTo bufferLength chunk) : ℤ) + 2) ∧
      b.toList.take (shortLength (padTo bufferLength chunk) + 2) = reply chunk := by
  have hL := shortLength_lt (padTo bufferLength chunk)
  have hlen : (padTo bufferLength chunk).length = bufferLength := length_padTo hchunk
  have hbuf : bufferLength = 1024 := rfl
  obtain ⟨stream, hd, hstream⟩ := decodePacket_eq recvbuffer rlength (by rw [h]; omega)
  rw [h] at hd hstream
  set L := shortLength (padTo bufferLength chunk) with hLdef
  -- the unmasked bytes, where `decode_packet` left them
  have hmask : (applyMask (keyOf ((padTo bufferLength chunk).drop 2))
      (((padTo bufferLength chunk).drop 6).take L)).length = L := by
    rw [length_applyMask, List.length_take, List.length_drop]
    omega
  have hdata : (stream.toList.drop 6).take L = applyMask (keyOf ((padTo bufferLength chunk).drop 2))
      (((padTo bufferLength chunk).drop 6).take L) := by
    have := take_drop_overwrite (padTo bufferLength chunk) 6 (applyMask
      (keyOf ((padTo bufferLength chunk).drop 2)) (((padTo bufferLength chunk).drop 6).take L))
      (by omega)
    rwa [hmask, ← hstream] at this
  obtain ⟨b, hb, htake⟩ := encodePacket_eq sendbuffer
    (keyOf ((padTo bufferLength chunk).drop 2)) (stream.toList.drop 6) L
    (by rw [List.length_drop, stream.toList_length]; omega) (by omega)
  have hret : Int.bmod ((L : ℤ) + 2) (2 ^ 32) = (L : ℤ) + 2 := by
    rw [Int.bmod_eq_of_le] <;> omega
  rw [hret] at hb
  refine ⟨_, b, hd, hb, ?_⟩
  rw [htake, hdata, applyMask_keyOf _ (by omega)]
  rfl

/-! ## What a connection has done -/

/-- The item an action is about. -/
def Action.subject : Action → ItemId
  | .transform id _ => id
  | .send id _ => id
  | .free id => id

/-- What was passed to `send` on a connection, in order. -/
def sends (log : List Action) (id : ItemId) : List (List UInt8) :=
  log.filterMap fun
    | .send i bytes => if i = id then some bytes else none
    | _ => none

/-- The chunks `transform` was run on, in order. -/
def chunks (log : List Action) (id : ItemId) : List (List UInt8) :=
  log.filterMap fun
    | .transform i chunk => if i = id then some chunk else none
    | _ => none

@[simp] theorem sends_append (log acts : List Action) (id : ItemId) :
    sends (log ++ acts) id = sends log id ++ sends acts id := List.filterMap_append

@[simp] theorem chunks_append (log acts : List Action) (id : ItemId) :
    chunks (log ++ acts) id = chunks log id ++ chunks acts id := List.filterMap_append

@[simp] theorem sends_send (id : ItemId) (bytes : List UInt8) :
    sends [.send id bytes] id = [bytes] := by simp [sends]

@[simp] theorem sends_transform (id : ItemId) (chunk : List UInt8) :
    sends [.transform id chunk] id = [] := rfl

@[simp] theorem sends_nil (id : ItemId) : sends [] id = [] := rfl

@[simp] theorem chunks_send (id : ItemId) (bytes : List UInt8) :
    chunks [.send id bytes] id = [] := rfl

@[simp] theorem chunks_transform (id : ItemId) (chunk : List UInt8) :
    chunks [.transform id chunk] id = [chunk] := by simp [chunks]

@[simp] theorem chunks_nil (id : ItemId) : chunks [] id = [] := rfl

/-- Actions of one connection are not actions of another. -/
theorem sends_eq_nil {acts : List Action} {id : ItemId} (h : ∀ a ∈ acts, a.subject ≠ id) :
    sends acts id = [] := by
  rw [sends, List.filterMap_eq_nil_iff]
  intro a ha
  cases a with
  | send i bytes => exact if_neg (h _ ha)
  | transform i chunk => rfl
  | free i => rfl

theorem chunks_eq_nil {acts : List Action} {id : ItemId} (h : ∀ a ∈ acts, a.subject ≠ id) :
    chunks acts id = [] := by
  rw [chunks, List.filterMap_eq_nil_iff]
  intro a ha
  cases a with
  | transform i chunk => exact if_neg (h _ ha)
  | send i bytes => rfl
  | free i => rfl

theorem mem_of_mem_sends {log : List Action} {id : ItemId} {bytes : List UInt8}
    (h : bytes ∈ sends log id) : .send id bytes ∈ log := by
  rw [sends, List.mem_filterMap] at h
  obtain ⟨a, ha, hsome⟩ := h
  cases a with
  | send i b =>
    dsimp only at hsome
    split at hsome
    · rename_i hi
      rw [← hi, ← Option.some.inj hsome]
      exact ha
    · cases hsome
  | transform i c => cases hsome
  | free i => cases hsome

/-- The message waiting in `sendbuffer`: there is one exactly while the
connection waits to be writable. -/
def queued (si : Sockitem) : List (List UInt8) :=
  if si.callback = .sendCb then [si.sendbuffer.toList.take si.slength.toNat] else []

/-- What holds of a live connection, given what it has done. -/
inductive ConnInv (log : List Action) (id : ItemId) (si : Sockitem) : Prop
  /-- The handshake is not answered yet: nothing was sent, nothing transformed. -/
  | handshake : si.status = .wsHandshark → si.callback = .recvCb → sends log id = [] →
      chunks log id = [] → ConnInv log id si
  /-- The handshake is answered: the response, then one reply for each chunk;
  the last of these messages may still be queued.  `recvbuffer` is all zero. -/
  | data (acc : List UInt8) : si.status = .wsDatatransform →
      si.recvbuffer = Block.zero bufferLength →
      (si.callback = .sendCb → 0 ≤ si.slength ∧ si.slength ≤ bufferLength) →
      sends log id ++ queued si = switchingProtocols acc :: (chunks log id).map reply →
      ConnInv log id si

/-- What holds of a connection that is gone. -/
def Finished (log : List Action) (id : ItemId) : Prop :=
  (sends log id = [] ∧ chunks log id = []) ∨
    ∃ acc, sends log id = switchingProtocols acc :: (chunks log id).map reply

/-- What holds of a cell of the heap.  The listening socket's item is not a
connection. -/
def CellInv (log : List Action) (id : ItemId) : Cell → Prop
  | .unallocated => sends log id = [] ∧ chunks log id = []
  | .live si => id ≠ listener → ConnInv log id si
  | .freed => Finished log id

/-- `transform` is run on a connection only after its `101` response has been
passed to `send`. -/
def Answered (log : List Action) : Prop :=
  ∀ before id chunk after, log = before ++ .transform id chunk :: after →
    ∃ acc, .send id (switchingProtocols acc) ∈ before

/-- Adding one action keeps `Answered`, if a new `transform` is in order. -/
theorem Answered.concat {log : List Action} {a : Action} (h : Answered log)
    (ha : ∀ id chunk, a = .transform id chunk →
      ∃ acc, .send id (switchingProtocols acc) ∈ log) : Answered (log ++ [a]) := by
  intro before id chunk after heq
  rcases List.eq_nil_or_concat after with rfl | ⟨after', b, rfl⟩
  · -- the new action is the `transform`
    have heq' : log ++ [a] = before ++ [.transform id chunk] := heq
    obtain ⟨hlog, hlast⟩ := List.append_inj' heq' rfl
    obtain ⟨acc, hacc⟩ := ha id chunk (List.cons.inj hlast).1
    exact ⟨acc, hlog ▸ hacc⟩
  · have heq' : log ++ [a] = (before ++ .transform id chunk :: after') ++ [b] := by
      simpa using heq
    exact h before id chunk after' (List.append_inj' heq' rfl).1

/-! ## The invariant -/

/-- The interest that goes with a callback. -/
def interestOf : Callback → Events
  | .acceptCb => .in
  | .recvCb => .inEt
  | .sendCb => .outEt

/-- The reported bits are among those asked for. -/
def Events.Within (ev reg : Events) : Prop :=
  (ev.epollin = true → reg.epollin = true) ∧ (ev.epollout = true → reg.epollout = true)

/-- No callback asks for `IN` and for `OUT`. -/
theorem not_in_and_out {ev : Events} {c : Callback} (h : ev.Within (interestOf c)) :
    ¬ (ev.epollin = true ∧ ev.epollout = true) := by
  rintro ⟨hin, hout⟩
  have h1 := h.1 hin
  have h2 := h.2 hout
  cases c <;> simp [interestOf, Events.in, Events.inEt, Events.outEt] at h1 h2

/-- **The invariant of the event loop.** -/
structure Inv (s : State) : Prop where
  /-- The listening socket's item was allocated first. -/
  listener_lt : listener < s.brk
  /-- Nothing is allocated from the next address on. -/
  unallocated : ∀ id, s.brk ≤ id → s.heap id = .unallocated
  /-- A live item is registered, with the interest of its callback. -/
  registered : ∀ id si, s.heap id = .live si →
    s.epoll si.sockfd = some ⟨interestOf si.callback, id⟩
  /-- A registered descriptor is open and belongs to the item it points to. -/
  owned : ∀ fd ev, s.epoll fd = some ev →
    s.opened fd = true ∧ ∃ si, s.heap ev.ptr = .live si ∧ si.sockfd = fd
  /-- The listening socket's item, and no other, accepts. -/
  role : ∀ id si, s.heap id = .live si → (si.callback = .acceptCb ↔ id = listener)
  /-- What each connection has done. -/
  history : ∀ id, CellInv s.log id (s.heap id)
  /-- No `transform` before the response. -/
  answered : Answered s.log
  /-- No item has two events waiting. -/
  nodup : (s.ready.map EpollEvent.ptr).Nodup
  /-- A waiting event is for a live item, and within the interest of its
  callback. -/
  pending : ∀ ev ∈ s.ready, ∃ si, s.heap ev.ptr = .live si ∧
    ev.events.Within (interestOf si.callback)

theorem inv_start {listenFd : Fd} {malloc : Sockitem} {opened : Fd → Bool}
    (hopen : opened listenFd = true) : Inv (start listenFd malloc opened) where
  listener_lt := Nat.zero_lt_one
  unallocated := by
    intro id hid
    have : id ≠ listener := by
      rintro rfl
      exact absurd hid (by simp [start, listener])
    simp [start, this]
  registered := by
    intro id si h
    simp only [start] at h
    split at h
    · rename_i hid
      subst hid
      rw [← Cell.live.inj h]
      simp [start, interestOf]
    · cases h
  owned := by
    intro fd ev h
    simp only [start] at h
    split at h
    · rename_i hfd
      subst hfd
      rw [← Option.some.inj h]
      exact ⟨hopen, _, rfl, rfl⟩
    · cases h
  role := by
    intro id si h
    simp only [start] at h
    split at h
    · rename_i hid
      rw [← Cell.live.inj h]
      exact iff_of_true rfl hid
    · cases h
  history := by
    intro id
    simp only [start]
    split
    · rename_i hid
      exact fun hne => absurd hid hne
    · exact ⟨rfl, rfl⟩
  answered := by
    intro before id chunk after h
    simp [start] at h
  nodup := List.nodup_nil
  pending := by simp [start]

/-! ## What one callback can do to the state -/

namespace State

/-- An item and its registration are rewritten together. -/
def touch (s : State) (id : ItemId) (si : Sockitem) (acts : List Action) : State :=
  { s with
    heap := Function.update s.heap id (.live si)
    epoll := Function.update s.epoll si.sockfd (some ⟨interestOf si.callback, id⟩)
    log := s.log ++ acts }

/-- An item and its descriptor are given back. -/
def release (s : State) (id : ItemId) (fd : Fd) : State :=
  { s with
    heap := Function.update s.heap id .freed
    opened := Function.update s.opened fd false
    epoll := Function.update s.epoll fd none
    log := s.log ++ [.free id] }

/-- A new item for a new descriptor. -/
def adopt (s : State) (si : Sockitem) : State :=
  { s with
    heap := Function.update s.heap s.brk (.live si)
    brk := s.brk + 1
    opened := Function.update s.opened si.sockfd true
    epoll := Function.update s.epoll si.sockfd (some ⟨interestOf si.callback, s.brk⟩) }

end State

/-- The effect of a callback on item `id`, whose contents were `si`. -/
inductive Effect (s : State) (id : ItemId) (si : Sockitem) : State → Prop
  | same : Effect s id si s
  | touch {si' : Sockitem} {acts : List Action} : id ≠ listener → si'.sockfd = si.sockfd →
      si'.callback ≠ .acceptCb → (∀ a ∈ acts, a.subject = id) →
      ConnInv (s.log ++ acts) id si' → Answered (s.log ++ acts) →
      Effect s id si (s.touch id si' acts)
  | release : id ≠ listener → Finished s.log id → Effect s id si (s.release id si.sockfd)
  | adopt {si' : Sockitem} : s.opened si'.sockfd = false → si'.callback = .recvCb →
      si'.status = .wsHandshark → Effect s id si (s.adopt si')

variable {s : State} {id : ItemId} {si : Sockitem}

/-- What a cell says about its own past is not touched by what others do. -/
theorem CellInv.append {log : List Action} {c : Cell} (h : CellInv log id c) (acts : List Action)
    (hacts : ∀ a ∈ acts, a.subject ≠ id) : CellInv (log ++ acts) id c := by
  have hs := sends_eq_nil hacts
  have hc := chunks_eq_nil hacts
  cases c with
  | unallocated => simpa [CellInv, hs, hc] using h
  | freed => simpa [CellInv, Finished, hs, hc] using h
  | live si =>
    intro hid
    cases h hid with
    | handshake h1 h2 h3 h4 =>
      exact .handshake h1 h2 (by simpa [hs] using h3) (by simpa [hc] using h4)
    | data acc h1 h2 h3 h4 =>
      exact .data acc h1 h2 h3 (by simpa [hs, hc] using h4)

/-- Two live items do not share a descriptor. -/
theorem Inv.eq_of_sockfd (hs : Inv s) {id' : ItemId} {si' : Sockitem}
    (h : s.heap id = .live si) (h' : s.heap id' = .live si') (hfd : si'.sockfd = si.sockfd) :
    id' = id := by
  have h1 := hs.registered id si h
  have h2 := hs.registered id' si' h'
  rw [hfd, h1, Option.some.injEq, EpollEvent.mk.injEq] at h2
  exact h2.2.symm

/-- A live item has been allocated. -/
theorem Inv.ne_of_brk_le (hs : Inv s) (hlive : s.heap id = .live si) {j : ItemId} (hj : s.brk ≤ j) :
    j ≠ id := by
  rintro rfl
  rw [hs.unallocated j hj] at hlive
  cases hlive

/-- The registration of another descriptor does not point to it. -/
theorem Inv.ptr_ne (hs : Inv s) (hlive : s.heap id = .live si) {fd : Fd} {ev : EpollEvent}
    (hfd : fd ≠ si.sockfd) (hev : s.epoll fd = some ev) : ev.ptr ≠ id := by
  intro h
  obtain ⟨-, sj, hj, hsj⟩ := hs.owned fd ev hev
  rw [h, hlive] at hj
  rw [← Cell.live.inj hj] at hsj
  exact hfd hsj.symm

/-- What waits is for other items than the one that changes. -/
theorem Inv.pending_of_heap (hs : Inv s) {s' : State} (hready : id ∉ s.ready.map EpollEvent.ptr)
    (hheap : ∀ j, j ≠ id → s'.heap j = s.heap j) :
    ∀ ev ∈ s.ready, ∃ si, s'.heap ev.ptr = .live si ∧
      ev.events.Within (interestOf si.callback) := by
  intro ev hev
  obtain ⟨sj, hj, hw⟩ := hs.pending ev hev
  have hne : ev.ptr ≠ id := fun h => hready (h ▸ List.mem_map_of_mem hev)
  exact ⟨sj, (hheap ev.ptr hne).trans hj, hw⟩

/-- What lies behind the last item still does. -/
theorem Inv.unallocated_of_heap (hs : Inv s) {s' : State} (hlive : s.heap id = .live si)
    (hheap : ∀ j, j ≠ id → s'.heap j = s.heap j) (j : ItemId) (hj : s.brk ≤ j) :
    s'.heap j = .unallocated :=
  (hheap j (hs.ne_of_brk_le hlive hj)).trans (hs.unallocated j hj)

theorem Inv.touch (hs : Inv s) (hlive : s.heap id = .live si)
    (hready : id ∉ s.ready.map EpollEvent.ptr) {si' : Sockitem} {acts : List Action}
    (hid : id ≠ listener) (hfd : si'.sockfd = si.sockfd) (hcb : si'.callback ≠ .acceptCb)
    (hacts : ∀ a ∈ acts, a.subject = id) (hconn : ConnInv (s.log ++ acts) id si')
    (hans : Answered (s.log ++ acts)) : Inv (s.touch id si' acts) where
  listener_lt := hs.listener_lt
  unallocated := hs.unallocated_of_heap hlive fun _ hne => Function.update_of_ne hne ..
  registered := by
    intro j sj hj
    by_cases hji : j = id
    · subst hji
      have hsj : si' = sj := by simpa [State.touch] using hj
      simp [State.touch, ← hsj]
    · have hj' : s.heap j = .live sj := by simpa [State.touch, Function.update_of_ne hji] using hj
      have hne : sj.sockfd ≠ si'.sockfd := fun h =>
        hji (hs.eq_of_sockfd hlive hj' (h.trans hfd))
      simpa [State.touch, Function.update_of_ne hne] using hs.registered j sj hj'
  owned := by
    intro fd ev hev
    by_cases hfd' : fd = si'.sockfd
    · subst hfd'
      have hev' : (⟨interestOf si'.callback, id⟩ : EpollEvent) = ev := by
        simpa [State.touch] using hev
      have hopen := (hs.owned _ _ (hs.registered id si hlive)).1
      refine ⟨by simpa [State.touch, hfd] using hopen, si', ?_, rfl⟩
      simp [State.touch, ← hev']
    · have hev' : s.epoll fd = some ev := by
        simpa [State.touch, Function.update_of_ne hfd'] using hev
      obtain ⟨hopen, sj, hj, hsj⟩ := hs.owned fd ev hev'
      have hne := hs.ptr_ne hlive (hfd ▸ hfd') hev'
      exact ⟨hopen, sj, by simpa [State.touch, Function.update_of_ne hne] using hj, hsj⟩
  role := by
    intro j sj hj
    by_cases hji : j = id
    · subst hji
      have hsj : si' = sj := by simpa [State.touch] using hj
      exact iff_of_false (hsj ▸ hcb) hid
    · exact hs.role j sj (by simpa [State.touch, Function.update_of_ne hji] using hj)
  history := by
    intro j
    by_cases hji : j = id
    · subst hji
      simp only [State.touch, Function.update_self]
      exact fun _ => hconn
    · have := (hs.history j).append acts fun a ha h => hji (h.symm.trans (hacts a ha))
      simpa [State.touch, Function.update_of_ne hji] using this
  answered := hans
  nodup := hs.nodup
  pending := hs.pending_of_heap hready fun _ hne => Function.update_of_ne hne ..

theorem Inv.release (hs : Inv s) (hlive : s.heap id = .live si)
    (hready : id ∉ s.ready.map EpollEvent.ptr) (hid : id ≠ listener)
    (hfin : Finished s.log id) : Inv (s.release id si.sockfd) where
  listener_lt := hs.listener_lt
  unallocated := hs.unallocated_of_heap hlive fun _ hne => Function.update_of_ne hne ..
  registered := by
    intro j sj hj
    have hji : j ≠ id := by
      rintro rfl
      simp [State.release] at hj
    have hj' : s.heap j = .live sj := by simpa [State.release, Function.update_of_ne hji] using hj
    have hne : sj.sockfd ≠ si.sockfd := fun h => hji (hs.eq_of_sockfd hlive hj' h)
    simpa [State.release, Function.update_of_ne hne] using hs.registered j sj hj'
  owned := by
    intro fd ev hev
    have hfd : fd ≠ si.sockfd := by
      rintro rfl
      simp [State.release] at hev
    have hev' : s.epoll fd = some ev := by
      simpa [State.release, Function.update_of_ne hfd] using hev
    obtain ⟨hopen, sj, hj, hsj⟩ := hs.owned fd ev hev'
    have hne := hs.ptr_ne hlive hfd hev'
    refine ⟨by simpa [State.release, Function.update_of_ne hfd] using hopen, sj, ?_, hsj⟩
    simpa [State.release, Function.update_of_ne hne] using hj
  role := by
    intro j sj hj
    have hji : j ≠ id := by
      rintro rfl
      simp [State.release] at hj
    exact hs.role j sj (by simpa [State.release, Function.update_of_ne hji] using hj)
  history := by
    intro j
    by_cases hji : j = id
    · subst hji
      simpa [State.release, CellInv, Finished, sends, chunks] using hfin
    · have := (hs.history j).append [.free id] fun a ha h => by
        rw [List.mem_singleton] at ha
        subst ha
        exact hji h.symm
      simpa [State.release, Function.update_of_ne hji] using this
  answered := hs.answered.concat fun _ _ h => by cases h
  nodup := hs.nodup
  pending := hs.pending_of_heap hready fun _ hne => Function.update_of_ne hne ..

theorem Inv.adopt (hs : Inv s) {si' : Sockitem} (hclosed : s.opened si'.sockfd = false)
    (hcb : si'.callback = .recvCb) (hstatus : si'.status = .wsHandshark) :
    Inv (s.adopt si') := by
  have hnone : ∀ ev, s.epoll si'.sockfd ≠ some ev := fun ev h => by
    have := (hs.owned _ _ h).1
    rw [hclosed] at this
    cases this
  have hbrk : ∀ j sj, s.heap j = .live sj → j ≠ s.brk :=
    fun j sj hj => (hs.ne_of_brk_le hj le_rfl).symm
  constructor
  case listener_lt => exact Nat.lt_succ_of_lt hs.listener_lt
  case unallocated =>
    intro j hj
    have hj' : s.brk + 1 ≤ j := hj
    have hne : j ≠ s.brk := Nat.ne_of_gt hj'
    simpa [State.adopt, Function.update_of_ne hne] using
      hs.unallocated j (Nat.le_of_succ_le hj')
  case registered =>
    intro j sj hj
    by_cases hji : j = s.brk
    · subst hji
      have hsj : si' = sj := by simpa [State.adopt] using hj
      simp [State.adopt, ← hsj]
    · have hj' : s.heap j = .live sj := by simpa [State.adopt, Function.update_of_ne hji] using hj
      have hne : sj.sockfd ≠ si'.sockfd := fun h => hnone _ (h ▸ hs.registered j sj hj')
      simpa [State.adopt, Function.update_of_ne hne] using hs.registered j sj hj'
  case owned =>
    intro fd ev hev
    by_cases hfd : fd = si'.sockfd
    · subst hfd
      have hev' : (⟨interestOf si'.callback, s.brk⟩ : EpollEvent) = ev := by
        simpa [State.adopt] using hev
      exact ⟨by simp [State.adopt], si', by simp [State.adopt, ← hev'], rfl⟩
    · have hev' : s.epoll fd = some ev := by
        simpa [State.adopt, Function.update_of_ne hfd] using hev
      obtain ⟨hopen, sj, hj, hsj⟩ := hs.owned fd ev hev'
      refine ⟨by simpa [State.adopt, Function.update_of_ne hfd] using hopen, sj, ?_, hsj⟩
      simpa [State.adopt, Function.update_of_ne (hbrk _ _ hj)] using hj
  case role =>
    intro j sj hj
    by_cases hji : j = s.brk
    · subst hji
      have hsj : si' = sj := by simpa [State.adopt] using hj
      refine iff_of_false ?_ (Nat.ne_of_gt hs.listener_lt)
      rw [← hsj, hcb]
      simp
    · exact hs.role j sj (by simpa [State.adopt, Function.update_of_ne hji] using hj)
  case history =>
    intro j
    by_cases hji : j = s.brk
    · subst hji
      have hnew := hs.history s.brk
      rw [hs.unallocated s.brk le_rfl] at hnew
      simp only [State.adopt, Function.update_self]
      exact fun _ => ConnInv.handshake hstatus hcb hnew.1 hnew.2
    · simpa [State.adopt, Function.update_of_ne hji] using hs.history j
  case answered => exact hs.answered
  case nodup => exact hs.nodup
  case pending =>
    have hready : s.brk ∉ s.ready.map EpollEvent.ptr := by
      intro hmem
      obtain ⟨ev, hev, hptr⟩ := List.mem_map.mp hmem
      obtain ⟨sj, hj, -⟩ := hs.pending ev hev
      exact hbrk _ _ hj hptr
    exact hs.pending_of_heap hready fun _ hne => Function.update_of_ne hne ..

/-- **Every effect keeps the invariant**, on an item that has no event waiting. -/
theorem Effect.inv {s' : State} (h : Effect s id si s') (hs : Inv s)
    (hlive : s.heap id = .live si) (hready : id ∉ s.ready.map EpollEvent.ptr) : Inv s' := by
  cases h with
  | same => exact hs
  | touch hid hfd hcb hacts hconn hans =>
    exact hs.touch hlive hready hid hfd hcb hacts hconn hans
  | release hid hfin => exact hs.release hlive hready hid hfin
  | adopt hclosed hcb hstatus => exact hs.adopt hclosed hcb hstatus

/-! ## What each callback does -/

variable {O : OpenSSL}

/-- Writing an item and modifying its registration is one `touch`. -/
theorem epollCtlMod_setItem (si' : Sockitem) {ev : EpollEvent}
    (hepoll : s.epoll si'.sockfd = some ev) (acts : List Action) :
    (({ s with log := s.log ++ acts } : State).setItem id si').epollCtlMod si'.sockfd
      ⟨interestOf si'.callback, id⟩ = s.touch id si' acts := by
  simp [State.setItem, State.epollCtlMod, State.touch, hepoll]

/-- Writing an item and keeping its registration is a `touch` too. -/
theorem setItem_eq_touch (si' : Sockitem)
    (hepoll : s.epoll si'.sockfd = some ⟨interestOf si'.callback, id⟩) :
    s.setItem id si' = s.touch id si' [] := by
  have h : Function.update s.epoll si'.sockfd (some ⟨interestOf si'.callback, id⟩) = s.epoll := by
    rw [← hepoll]
    exact Function.update_eq_self _ _
  simp [State.setItem, State.touch, h]

/-- The item after a message has been put in its `sendbuffer`. -/
structure Queues (si si' : Sockitem) (message : List UInt8) : Prop where
  sockfd : si'.sockfd = si.sockfd
  callback : si'.callback = .sendCb
  status : si'.status = .wsDatatransform
  recvbuffer : si'.recvbuffer = Block.zero bufferLength
  slength : si'.slength = message.length
  sendbuffer : si'.sendbuffer.toList.take message.length = message

theorem Queues.queued_eq {si' : Sockitem} {message : List UInt8} (h : Queues si si' message) :
    queued si' = [message] := by
  rw [queued, if_pos h.callback, h.slength, Int.toNat_natCast, h.sendbuffer]

/-- What is queued fits the buffer it is queued in. -/
theorem Queues.length_le {si' : Sockitem} {message : List UInt8} (h : Queues si si' message) :
    message.length ≤ bufferLength := by
  have := congrArg List.length h.sendbuffer
  rw [List.length_take, si'.sendbuffer.toList_length] at this
  omega

/-- `transform`, on a buffer with a chunk and zero bytes after it. -/
theorem transform_eq (id : ItemId) (si : Sockitem) {ev : EpollEvent} {chunk : List UInt8}
    (acts : List Action)
    (hepoll : s.epoll si.sockfd = some ev) (hchunk : chunk.length ≤ bufferLength)
    (hrecv : si.recvbuffer.toList = padTo bufferLength chunk) :
    ∃ si', transform { s with log := s.log ++ acts } id si = .ok (s.touch id si' acts) ∧
      Queues si si' (reply chunk) := by
  obtain ⟨d, b, hd, hb, htake⟩ := encode_decode_eq si.sendbuffer si.rlength hchunk hrecv
  refine ⟨{ si with
    recvbuffer := Block.zero bufferLength
    sendbuffer := b
    slength := (shortLength (padTo bufferLength chunk) : ℤ) + 2
    callback := .sendCb
    status := .wsDatatransform }, ?_, rfl, rfl, rfl, rfl, ?_, ?_⟩
  · simp only [transform, hd, hb]
    exact congrArg Except.ok (epollCtlMod_setItem { si with
      recvbuffer := Block.zero bufferLength
      sendbuffer := b
      slength := (shortLength (padTo bufferLength chunk) : ℤ) + 2
      callback := .sendCb
      status := .wsDatatransform } hepoll acts)
  · rw [length_reply]
    push_cast
    rfl
  · rw [length_reply]
    exact htake

/-- **`recv_cb` on data, after the handshake.**  The reply is queued, whatever
the item held before. -/
theorem recvCb_data_eq (id : ItemId) {ev : EpollEvent} {chunk : List UInt8}
    (hepoll : s.epoll si.sockfd = some ev) (hchunk : chunk.length ≤ bufferLength)
    (hstatus : si.status = .wsDatatransform) (hzero : si.recvbuffer = Block.zero bufferLength) :
    ∃ si', recvCb O s id si.sockfd si (.data chunk) =
        .ok (s.touch id si' [.transform id chunk]) ∧ Queues si si' (reply chunk) := by
  obtain ⟨b, hb, hlist⟩ := Block.store_eq_some si.recvbuffer 0 chunk (by omega)
  have hpad : b.toList = padTo bufferLength chunk := by
    rw [hlist, hzero, Block.toList_zero, overwrite_replicate]
    rfl
  obtain ⟨si', hsi', hq⟩ := transform_eq id { si with recvbuffer := b, rlength := 0 }
    [.transform id chunk] hepoll hchunk hpad
  refine ⟨si', ?_, hq.sockfd, hq.callback, hq.status, hq.recvbuffer, hq.slength, hq.sendbuffer⟩
  simp only [recvCb, hb, hstatus]
  exact hsi'

/-- A message queued on a connection, after the actions that led to it. -/
theorem Queues.effect {si' : Sockitem} {message : List UInt8} {acts : List Action}
    (h : Queues si si' message) (hid : id ≠ listener) (hacts : ∀ a ∈ acts, a.subject = id)
    (acc : List UInt8)
    (hsent : sends (s.log ++ acts) id ++ [message] =
      switchingProtocols acc :: (chunks (s.log ++ acts) id).map reply)
    (hans : Answered (s.log ++ acts)) : Effect s id si (s.touch id si' acts) := by
  refine .touch hid h.sockfd (by simp [h.callback]) hacts ?_ hans
  refine .data acc h.status h.recvbuffer (fun _ => ?_) ?_
  · have := h.length_le
    rw [h.slength]
    omega
  · rw [h.queued_eq, hsent]

/-- A connection whose callback is `recv_cb` has nothing queued. -/
theorem queued_recvCb (hcb : si.callback = .recvCb) : queued si = [] := by
  rw [queued, if_neg (by simp [hcb])]

/-- `handshark` on a connection that is not answered yet. -/
theorem handsharkItem_cases (hs : Inv s) (hlive : s.heap id = .live si) (hid : id ≠ listener)
    (hcb : si.callback = .recvCb) (hstatus : si.status = .wsHandshark)
    (hsends : sends s.log id = []) (hchunks : chunks s.log id = [])
    (b : Block UInt8 bufferLength) :
    handsharkItem O s id { si with recvbuffer := b, rlength := 0 } = .error .stackOverflow ∨
      handsharkItem O s id { si with recvbuffer := b, rlength := 0 } = .error .outOfBounds ∨
      ∃ s', handsharkItem O s id { si with recvbuffer := b, rlength := 0 } = .ok s' ∧
        Effect s id si s' := by
  have hreg := hs.registered id si hlive
  have hlog : s.log ++ [] = s.log := List.append_nil _
  rcases handshark_cases (O := O) b si.sendbuffer with h | h | h | ⟨acc, hacc, h⟩
  · exact Or.inl (by simp only [handsharkItem, h])
  · exact Or.inr (Or.inl (by simp only [handsharkItem, h]))
  · -- no key: the item keeps waiting for a request
    refine Or.inr (Or.inr ⟨s.touch id { si with recvbuffer := b, rlength := 0 } [], ?_, ?_⟩)
    · simp only [handsharkItem, h]
      exact congrArg Except.ok (setItem_eq_touch { si with recvbuffer := b, rlength := 0 } hreg)
    · refine .touch hid rfl (by simp [hcb]) (by simp) ?_ (by rw [hlog]; exact hs.answered)
      rw [hlog]
      exact .handshake hstatus hcb hsends hchunks
  · -- a key: the response is queued
    obtain ⟨sb, hsb, hlist⟩ := Block.store_eq_some si.sendbuffer 0
      (switchingProtocols acc) (by
        rw [length_switchingProtocols]
        have : bufferLength = 1024 := rfl
        omega)
    refine Or.inr (Or.inr ⟨s.touch id { si with
      recvbuffer := Block.zero bufferLength
      rlength := 0
      sendbuffer := sb
      slength := (switchingProtocols acc).length
      callback := .sendCb
      status := .wsDatatransform } [], ?_, ?_⟩)
    · simp only [handsharkItem, h, hsb]
      refine congrArg Except.ok (Eq.trans ?_ (epollCtlMod_setItem { si with
        recvbuffer := Block.zero bufferLength
        rlength := 0
        sendbuffer := sb
        slength := (switchingProtocols acc).length
        callback := .sendCb
        status := .wsDatatransform } hreg []))
      rw [hlog]
      rfl
    · have hq : Queues si { si with
          recvbuffer := Block.zero bufferLength
          rlength := 0
          sendbuffer := sb
          slength := (switchingProtocols acc).length
          callback := .sendCb
          status := .wsDatatransform } (switchingProtocols acc) :=
        ⟨rfl, rfl, rfl, rfl, rfl, by rw [hlist, overwrite_zero, List.take_left]⟩
      refine hq.effect hid (by simp) acc ?_ (by rw [hlog]; exact hs.answered)
      simp [hsends, hchunks]

/-- Closing a connection, in the order the code does it. -/
theorem close_free_eq (hlive : s.heap id = .live si) :
    ((s.epollCtlDel si.sockfd).close si.sockfd).free id = .ok (s.release id si.sockfd) := by
  simp [State.epollCtlDel, State.close, State.free, State.record, State.release, hlive]

/-- A connection that has nothing queued can be closed. -/
theorem ConnInv.finished {log : List Action} (h : ConnInv log id si)
    (hcb : si.callback = .recvCb) : Finished log id := by
  cases h with
  | handshake _ _ hsends hchunks => exact Or.inl ⟨hsends, hchunks⟩
  | data acc _ _ _ hsent =>
    rw [queued_recvCb hcb, List.append_nil] at hsent
    exact Or.inr ⟨acc, hsent⟩

theorem recvCb_cases (hs : Inv s) (hlive : s.heap id = .live si) (hid : id ≠ listener)
    (hcb : si.callback = .recvCb) (r : RecvResult)
    (hr : ∀ chunk, r = .data chunk → chunk.length ≤ bufferLength) :
    recvCb O s id si.sockfd si r = .error .stackOverflow ∨
      recvCb O s id si.sockfd si r = .error .outOfBounds ∨
      ∃ s', recvCb O s id si.sockfd si r = .ok s' ∧ Effect s id si s' := by
  have hconn : ConnInv s.log id si := by
    have := hs.history id
    rw [hlive] at this
    exact this hid
  have hreg := hs.registered id si hlive
  cases r with
  | again => exact Or.inr (Or.inr ⟨s, rfl, .same⟩)
  | fail => exact Or.inr (Or.inr ⟨_, close_free_eq hlive, .release hid (hconn.finished hcb)⟩)
  | eof => exact Or.inr (Or.inr ⟨_, close_free_eq hlive, .release hid (hconn.finished hcb)⟩)
  | data chunk =>
    have hchunk := hr chunk rfl
    cases hconn with
    | handshake hstatus _ hsends hchunks =>
      obtain ⟨b, hb, -⟩ := Block.store_eq_some si.recvbuffer 0 chunk (by omega)
      have hcase : recvCb O s id si.sockfd si (.data chunk) =
          handsharkItem O s id { si with recvbuffer := b, rlength := 0 } := by
        simp only [recvCb, hb]
        split
        · rfl
        · rename_i h
          rw [hstatus] at h
          cases h
        · rename_i h
          rw [hstatus] at h
          cases h
      rw [hcase]
      exact handsharkItem_cases hs hlive hid hcb hstatus hsends hchunks b
    | data acc hstatus hzero _ hsent =>
      obtain ⟨si', hsi', hq⟩ := recvCb_data_eq (O := O) id hreg hchunk hstatus hzero
      rw [queued_recvCb hcb, List.append_nil] at hsent
      refine Or.inr (Or.inr ⟨_, hsi', hq.effect hid (by simp [Action.subject]) acc ?_ ?_⟩)
      · simp [hsent]
      · refine hs.answered.concat fun j c h => ⟨acc, ?_⟩
        obtain ⟨rfl, -⟩ := Action.transform.inj h
        exact mem_of_mem_sends (by rw [hsent]; exact List.mem_cons_self)

theorem sendCb_effect (hs : Inv s) (hlive : s.heap id = .live si) (hid : id ≠ listener)
    (hcb : si.callback = .sendCb) :
    ∃ s', sendCb s id si.sockfd si = .ok s' ∧ Effect s id si s' ∧
      s'.log = s.log ++ [.send id (si.sendbuffer.toList.take si.slength.toNat)] := by
  have hconn : ConnInv s.log id si := by
    have := hs.history id
    rw [hlive] at this
    exact this hid
  have hreg := hs.registered id si hlive
  cases hconn with
  | handshake _ hcb' _ _ =>
    rw [hcb] at hcb'
    cases hcb'
  | data acc hstatus hzero hbound hsent =>
    obtain ⟨h0, hle⟩ := hbound hcb
    have hload : si.sendbuffer.load 0 si.slength.toNat =
        some (si.sendbuffer.toList.take si.slength.toNat) := by
      rw [Block.load_eq_some (by omega), List.drop_zero]
    refine ⟨s.touch id { si with
      callback := .recvCb
      sendbuffer := Block.zero bufferLength }
      [.send id (si.sendbuffer.toList.take si.slength.toNat)], ?_, ?_, rfl⟩
    · simp only [sendCb, if_neg (show ¬ si.slength < 0 by omega), hload]
      exact congrArg Except.ok (epollCtlMod_setItem { si with
        callback := .recvCb
        sendbuffer := Block.zero bufferLength } hreg _)
    · refine .touch hid rfl (by simp) (by simp [Action.subject]) ?_ ?_
      · refine .data acc hstatus hzero (fun h => by cases h) ?_
        rw [queued, if_pos hcb] at hsent
        simpa [queued] using hsent
      · exact hs.answered.concat fun j c h => by cases h

theorem acceptCb_effect (hs : Inv s) (k : Kernel) (hk : k.Sound s) :
    ∃ s', acceptCb s k = .ok s' ∧ Effect s id si s' := by
  by_cases h : k.accept ≤ 0
  · exact ⟨s, if_pos h, .same⟩
  · have hclosed := hk.1 (not_le.mp h)
    have hnone : s.epoll k.accept = none := by
      by_contra hne
      obtain ⟨ev, hev⟩ := Option.ne_none_iff_exists'.mp hne
      rw [(hs.owned _ _ hev).1] at hclosed
      cases hclosed
    refine ⟨s.adopt { k.malloc with
      sockfd := k.accept
      callback := .recvCb
      status := .wsHandshark }, ?_, .adopt hclosed rfl rfl⟩
    simp [acceptCb, h, State.epollCtlAdd, State.adopt, hnone, interestOf]

/-- **What a callback can come to.** -/
theorem call_cases (hs : Inv s) (hlive : s.heap id = .live si) (k : Kernel) (hk : k.Sound s) :
    call O s id k = .error .stackOverflow ∨ call O s id k = .error .outOfBounds ∨
      ∃ s', call O s id k = .ok s' ∧ Effect s id si s' := by
  have hrole := hs.role id si hlive
  cases hcb : si.callback with
  | acceptCb =>
    simp only [call, hlive, hcb]
    exact Or.inr (Or.inr (acceptCb_effect hs k hk))
  | recvCb =>
    simp only [call, hlive, hcb]
    have hid : id ≠ listener := fun h => by
      rw [hrole.mpr h] at hcb
      cases hcb
    exact recvCb_cases hs hlive hid hcb k.recv fun chunk h => (hk.2 chunk h).2
  | sendCb =>
    simp only [call, hlive, hcb]
    have hid : id ≠ listener := fun h => by
      rw [hrole.mpr h] at hcb
      cases hcb
    obtain ⟨s', hs', heff, -⟩ := sendCb_effect hs hlive hid hcb
    exact Or.inr (Or.inr ⟨s', hs', heff⟩)

/-! ## One step of the loop -/

/-- Handling an event takes it off the list. -/
theorem Inv.pop (hs : Inv s) {ev : EpollEvent} {rest : List EpollEvent}
    (hready : s.ready = ev :: rest) : Inv { s with ready := rest } ∧
      ev.ptr ∉ rest.map EpollEvent.ptr := by
  have hnodup := hs.nodup
  rw [hready, List.map_cons, List.nodup_cons] at hnodup
  refine ⟨⟨hs.listener_lt, hs.unallocated, hs.registered, hs.owned, hs.role, hs.history,
    hs.answered, hnodup.2, ?_⟩, hnodup.1⟩
  intro ev' hev'
  exact hs.pending ev' (by rw [hready]; exact List.mem_cons_of_mem _ hev')

/-- **At most one of the two `if`s fires**, so handling an event is at most one
callback. -/
theorem dispatch_eq (hs : Inv s) {ev : EpollEvent} {rest : List EpollEvent}
    (hready : s.ready = ev :: rest) (k₁ k₂ : Kernel) :
    dispatch O { s with ready := rest } ev k₁ k₂ = .ok { s with ready := rest } ∨
      (ev.events.epollin = true ∧ dispatch O { s with ready := rest } ev k₁ k₂ =
        call O { s with ready := rest } ev.ptr k₁) ∨
      (ev.events.epollin = false ∧ dispatch O { s with ready := rest } ev k₁ k₂ =
        call O { s with ready := rest } ev.ptr k₂) := by
  obtain ⟨si, -, hw⟩ := hs.pending ev (by rw [hready]; exact List.mem_cons_self)
  have hboth := not_in_and_out hw
  cases hin : ev.events.epollin with
  | true =>
    have hout : ev.events.epollout = false := by
      simpa [hin] using hboth
    refine Or.inr (Or.inl ⟨rfl, ?_⟩)
    simp only [dispatch, onIn, onOut, hin, hout, if_true]
    cases call O { s with ready := rest } ev.ptr k₁ <;> rfl
  | false =>
    cases hout : ev.events.epollout with
    | true => exact Or.inr (Or.inr ⟨rfl, by simp [dispatch, onIn, onOut, hin, hout]⟩)
    | false => exact Or.inl (by simp [dispatch, onIn, onOut, hin, hout])

/-- The outcome of handling an event, in any state of the invariant. -/
theorem dispatch_cases (hs : Inv s) {ev : EpollEvent} {rest : List EpollEvent}
    (hready : s.ready = ev :: rest) {k₁ k₂ : Kernel} (hk₁ : k₁.Sound s)
    (hk₂ : ∀ t, onIn O { s with ready := rest } ev k₁ = .ok t → k₂.Sound t) :
    dispatch O { s with ready := rest } ev k₁ k₂ = .error .stackOverflow ∨
      dispatch O { s with ready := rest } ev k₁ k₂ = .error .outOfBounds ∨
      ∃ s', dispatch O { s with ready := rest } ev k₁ k₂ = .ok s' ∧ Inv s' := by
  obtain ⟨hs', hnot⟩ := hs.pop hready
  obtain ⟨si, hlive, -⟩ := hs.pending ev (by rw [hready]; exact List.mem_cons_self)
  have hcall : ∀ k : Kernel, k.Sound { s with ready := rest } →
      call O { s with ready := rest } ev.ptr k = .error .stackOverflow ∨
        call O { s with ready := rest } ev.ptr k = .error .outOfBounds ∨
        ∃ s', call O { s with ready := rest } ev.ptr k = .ok s' ∧ Inv s' := by
    intro k hk
    rcases call_cases hs' hlive k hk with h | h | ⟨t, ht, heff⟩
    · exact Or.inl h
    · exact Or.inr (Or.inl h)
    · exact Or.inr (Or.inr ⟨t, ht, heff.inv hs' hlive hnot⟩)
  rcases dispatch_eq (O := O) hs hready k₁ k₂ with h | ⟨-, h⟩ | ⟨hin, h⟩
  · exact Or.inr (Or.inr ⟨_, h, hs'⟩)
  · rw [h]
    exact hcall k₁ hk₁
  · rw [h]
    exact hcall k₂ (hk₂ _ (by simp [onIn, hin]))

/-- What `epoll_wait` reports is about live items, each once. -/
theorem Inv.wait (hs : Inv s) {batch : List (Fd × Events)} (hb : SoundBatch s batch) :
    Inv { s with ready := report s batch } := by
  obtain ⟨-, hnodup, hall⟩ := hb
  refine ⟨hs.listener_lt, hs.unallocated, hs.registered, hs.owned, hs.role, hs.history,
    hs.answered, ?_, ?_⟩
  · -- two descriptors with the same pointer are the descriptor of one item
    have hmap : (report s batch).map EpollEvent.ptr =
        (batch.map Prod.fst).filterMap fun fd => (s.epoll fd).map EpollEvent.ptr := by
      simp only [report, List.map_filterMap, List.filterMap_map]
      congr 1
      funext p
      rw [Option.map_map]
      rfl
    show ((report s batch).map EpollEvent.ptr).Nodup
    rw [hmap]
    refine hnodup.filterMap fun fd fd' ptr h h' => ?_
    simp only [Option.mem_def, Option.map_eq_some_iff] at h h'
    obtain ⟨reg, hreg, rfl⟩ := h
    obtain ⟨reg', hreg', hptr⟩ := h'
    obtain ⟨-, si, hlive, rfl⟩ := hs.owned _ _ hreg
    obtain ⟨-, si', hlive', rfl⟩ := hs.owned _ _ hreg'
    rw [hptr, hlive] at hlive'
    rw [Cell.live.inj hlive']
  · intro ev hev
    simp only [report, List.mem_filterMap, Option.map_eq_some_iff] at hev
    obtain ⟨p, hp, reg, hreg, rfl⟩ := hev
    obtain ⟨reg', hreg', hw⟩ := hall p hp
    rw [hreg, Option.some.injEq] at hreg'
    subst hreg'
    obtain ⟨-, si, hlive, hfd⟩ := hs.owned _ _ hreg
    refine ⟨si, hlive, ?_⟩
    have := hs.registered _ _ hlive
    rw [hfd, hreg, Option.some.injEq] at this
    rw [this] at hw
    exact hw

/-- **The invariant holds along every run.** -/
theorem inv_of_reachable (h : (server O).Reachable s) : Inv s := by
  refine h.invariant ?_ ?_
  · rintro s ⟨listenFd, malloc, opened, hopen, rfl⟩
    exact inv_start hopen
  · intro s l s' hs hstep
    cases hstep with
    | wait _ hb => exact hs.wait hb
    | handle hready hk₁ hk₂ hok =>
      rcases dispatch_cases hs hready hk₁ hk₂ with h | h | ⟨t, ht, hinv⟩
      · rw [h] at hok
        cases hok
      · rw [h] at hok
        cases hok
      · rw [ht] at hok
        exact Except.ok.inj hok ▸ hinv

/-! ## The life cycle of a connection -/

/-- **Callback, interest and status stay in step.**  In every reachable state:
a client's callback is `recv_cb` exactly when its descriptor is registered for
`EPOLLIN|EPOLLET` and `send_cb` exactly when it is registered for
`EPOLLOUT|EPOLLET`; no event waiting to be handled would make both `if`s of the
loop fire; handling it uses no freed item and frees none twice; and no
`transform` came before the connection's `101` response was passed to `send`. -/
theorem lifecycle (h : (server O).Reachable s) :
    (∀ id si, s.heap id = .live si → id ≠ listener →
      (si.callback = .recvCb ∨ si.callback = .sendCb) ∧
      (si.callback = .recvCb ↔ s.epoll si.sockfd = some ⟨.inEt, id⟩) ∧
      (si.callback = .sendCb ↔ s.epoll si.sockfd = some ⟨.outEt, id⟩)) ∧
    (∀ ev ∈ s.ready, ¬ (ev.events.epollin = true ∧ ev.events.epollout = true)) ∧
    (∀ ev rest k₁ k₂, s.ready = ev :: rest → k₁.Sound s →
      (∀ t, onIn O { s with ready := rest } ev k₁ = .ok t → k₂.Sound t) →
      dispatch O { s with ready := rest } ev k₁ k₂ ≠ .error .useAfterFree ∧
      dispatch O { s with ready := rest } ev k₁ k₂ ≠ .error .doubleFree) ∧
    ∀ before id chunk after, s.log = before ++ .transform id chunk :: after →
      ∃ acc, .send id (switchingProtocols acc) ∈ before := by
  have hs := inv_of_reachable h
  refine ⟨?_, ?_, ?_, hs.answered⟩
  · intro id si hlive hid
    have hreg := hs.registered id si hlive
    have hrole := hs.role id si hlive
    cases hcb : si.callback with
    | acceptCb => exact absurd (hrole.mp hcb) hid
    | recvCb =>
      rw [hreg, hcb]
      simp [interestOf, Events.inEt, Events.outEt]
    | sendCb =>
      rw [hreg, hcb]
      simp [interestOf, Events.inEt, Events.outEt]
  · intro ev hev
    obtain ⟨si, -, hw⟩ := hs.pending ev hev
    exact not_in_and_out hw
  · intro ev rest k₁ k₂ hready hk₁ hk₂
    rcases dispatch_cases hs hready hk₁ hk₂ with h | h | ⟨t, ht, -⟩
    · simp [h]
    · simp [h]
    · simp [ht]

/-- The callback of a live item. -/
def Cell.callback : Cell → Option Callback
  | .live si => some si.callback
  | _ => none

/-- After the example handshake and one message, the connection is live and
waits for data, in its callback and in the kernel. -/
theorem lifecycle_session :
    ∃ s si, (server sampleOpenSSL).Reachable s ∧ s.heap 1 = .live si ∧ si.callback = .recvCb ∧
      s.epoll si.sockfd = some ⟨.inEt, 1⟩ := by
  have hrun : ((drive sampleOpenSSL sampleStart (session
      [serialize (clientText ![1, 2, 3, 4] (ascii "Hi"))])).map fun s =>
        (s.heap 1).callback) = some (some .recvCb) := by decide +kernel
  obtain ⟨s, hs, hcell⟩ := Option.map_eq_some_iff.mp hrun
  have hreach := drive_reachable (sampleStart_reachable _) hs
  cases hheap : s.heap 1 with
  | unallocated => simp [hheap, Cell.callback] at hcell
  | freed => simp [hheap, Cell.callback] at hcell
  | live si =>
    have hcb : si.callback = .recvCb := by simpa [hheap, Cell.callback] using hcell
    exact ⟨s, si, hreach, hheap, hcb,
      ((lifecycle hreach).1 1 si hheap (by decide)).2.1.mp hcb⟩

end EpollWebsocketC
end WebSocket
end UnixNetwork
