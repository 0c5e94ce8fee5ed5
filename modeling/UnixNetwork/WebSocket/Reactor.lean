import Mathlib.Data.List.Nodup
import Mathlib.Logic.Function.Basic
import UnixNetwork.Protocol.Rfc4648
import UnixNetwork.Transition.System
import UnixNetwork.WebSocket.Packet
import UnixNetwork.WebSocket.Handshark

/-!
# The event loop of the C server

`accept_cb`, `recv_cb`, `send_cb`, `transform`, the effects of `handshark`, and
the loop of `main` in `websocket/epoll_websocket.c`, as a transition system over
the process and the part of the kernel it talks to.

The heap maps addresses to cells.  An address is handed out once and never
reused, so a pointer kept too long points at a `freed` cell and using it is
`Fault.useAfterFree` --- with reused addresses the mistake would be hidden, not
absent.  `epoll` is the kernel's interest list, `opened` the descriptors in use,
`ready` what is left of the events the last `epoll_wait` returned, and `log` what
the process did that can be seen from outside (and, for `transform`, which chunk
it was run on).

The environment chooses, at each `epoll_wait`, any list of registered
descriptors without repetition, each with any of the event bits it was registered
for and any of `ERR` and `HUP`; and at each callback what `accept`, `recv` and
`malloc` give.  What `malloc` gives is memory with arbitrary contents.

A step that runs into a `Fault` is not a step: a run is followed as far as C
defines it.

`drive` runs the server under a script of single events, so that particular runs
can be computed; `drive_reachable` says that what it computes is a run.
-/

namespace UnixNetwork
namespace WebSocket
namespace EpollWebsocketC

open Bytes Rfc6455

/-- A file descriptor, an `int`. -/
abbrev Fd := ℤ

/-- The address of a `sockitem`. -/
abbrev ItemId := ℕ

/-- The three functions `si->callback` can point to. -/
inductive Callback where
  | acceptCb
  | recvCb
  | sendCb
  deriving DecidableEq

/-- `enum WEBSOCKET_STATUS`. -/
inductive Status where
  | wsHandshark
  | wsDatatransform
  | wsDataend
  deriving DecidableEq

/-- `struct sockitem`. -/
structure Sockitem where
  sockfd : Fd
  callback : Callback
  recvbuffer : Block UInt8 bufferLength
  sendbuffer : Block UInt8 bufferLength
  rlength : ℤ
  slength : ℤ
  status : Status

/-- The bits of `epoll_event.events`. -/
structure Events where
  epollin : Bool
  epollout : Bool
  epollerr : Bool
  epollhup : Bool
  epollet : Bool
  deriving DecidableEq

/-- `EPOLLIN`. -/
def Events.in : Events := ⟨true, false, false, false, false⟩

/-- `EPOLLIN | EPOLLET`. -/
def Events.inEt : Events := ⟨true, false, false, false, true⟩

/-- `EPOLLOUT | EPOLLET`. -/
def Events.outEt : Events := ⟨false, true, false, false, true⟩

/-- `struct epoll_event` with its `data.ptr`. -/
structure EpollEvent where
  events : Events
  ptr : ItemId
  deriving DecidableEq

/-- A cell of the heap. -/
inductive Cell where
  | unallocated
  | live (si : Sockitem)
  | freed

/-- What the process did. -/
inductive Action where
  | transform (id : ItemId) (chunk : List UInt8)
  | send (id : ItemId) (bytes : List UInt8)
  | free (id : ItemId)
  deriving DecidableEq

/-- The process and its kernel. -/
structure State where
  heap : ItemId → Cell
  brk : ItemId
  epoll : Fd → Option EpollEvent
  opened : Fd → Bool
  ready : List EpollEvent
  log : List Action

/-- What `recv` returns: some bytes, end of file, `EAGAIN`, another error. -/
inductive RecvResult where
  | data (chunk : List UInt8)
  | eof
  | again
  | fail
  deriving DecidableEq

/-- What the system calls of one callback give: the result of `accept`, the
memory from `malloc`, the result of `recv`. -/
structure Kernel where
  accept : Fd
  malloc : Sockitem
  recv : RecvResult

namespace State

/-! ## System calls -/

/-- `*si = ...`, through a pointer to `id`. -/
def setItem (s : State) (id : ItemId) (si : Sockitem) : State :=
  { s with heap := Function.update s.heap id (.live si) }

/-- An action becomes visible. -/
def record (s : State) (a : Action) : State := { s with log := s.log ++ [a] }

/-- `epoll_ctl(epfd, EPOLL_CTL_ADD, fd, &ev)`. -/
def epollCtlAdd (s : State) (fd : Fd) (ev : EpollEvent) : State :=
  if s.opened fd = true ∧ s.epoll fd = none then
    { s with epoll := Function.update s.epoll fd (some ev) }
  else s

/-- `epoll_ctl(epfd, EPOLL_CTL_MOD, fd, &ev)`. -/
def epollCtlMod (s : State) (fd : Fd) (ev : EpollEvent) : State :=
  if s.epoll fd = none then s else { s with epoll := Function.update s.epoll fd (some ev) }

/-- `epoll_ctl(epfd, EPOLL_CTL_DEL, fd, &ev)`. -/
def epollCtlDel (s : State) (fd : Fd) : State :=
  { s with epoll := Function.update s.epoll fd none }

/-- `close(fd)`, which also takes the descriptor off the interest list. -/
def close (s : State) (fd : Fd) : State :=
  { s with
    opened := Function.update s.opened fd false
    epoll := Function.update s.epoll fd none }

/-- `free(si)`. -/
def free (s : State) (id : ItemId) : Except Fault State :=
  match s.heap id with
  | .live _ => .ok ({ s with heap := Function.update s.heap id .freed }.record (.free id))
  | _ => .error .doubleFree

end State

/-! ## The callbacks -/

variable (O : OpenSSL)

/-- `transform`: decode what is in `recvbuffer`, encode it into `sendbuffer`,
wait for writability. -/
def transform (s : State) (id : ItemId) (si : Sockitem) : Except Fault State :=
  match decodePacket si.recvbuffer si.rlength with
  | none => .error .outOfBounds
  | some d =>
    match encodePacket si.sendbuffer d.mask (d.stream.toList.drop d.data) d.ret with
    | none => .error .outOfBounds
    | some (sendbuffer, ret) =>
      let si := { si with
        recvbuffer := Block.zero bufferLength
        sendbuffer := sendbuffer
        slength := ret
        callback := .sendCb
        status := .wsDatatransform }
      .ok ((s.setItem id si).epollCtlMod si.sockfd ⟨.outEt, id⟩)

/-- What `handshark` does to the connection with its response, if it has one. -/
def handsharkItem (s : State) (id : ItemId) (si : Sockitem) : Except Fault State :=
  match handshark O si.recvbuffer si.sendbuffer with
  | .error e => .error e
  | .ok none => .ok (s.setItem id si)
  | .ok (some head) =>
    match si.sendbuffer.store 0 head with
    | none => .error .outOfBounds
    | some sendbuffer =>
      let si := { si with
        recvbuffer := Block.zero bufferLength
        sendbuffer := sendbuffer
        slength := head.length
        callback := .sendCb
        status := .wsDatatransform }
      .ok ((s.setItem id si).epollCtlMod si.sockfd ⟨.outEt, id⟩)

/-- `recv_cb`. -/
def recvCb (s : State) (id : ItemId) (fd : Fd) (si : Sockitem) (r : RecvResult) :
    Except Fault State :=
  match r with
  | .again => .ok s
  | .fail => ((s.epollCtlDel fd).close fd).free id
  | .eof => ((s.epollCtlDel fd).close fd).free id
  | .data chunk =>
    -- `recv` writes to the front of `recvbuffer`; the rest of it stays
    match si.recvbuffer.store 0 chunk with
    | none => .error .outOfBounds
    | some recvbuffer =>
      let si := { si with recvbuffer := recvbuffer, rlength := 0 }
      match si.status with
      | .wsHandshark => handsharkItem O s id si
      | .wsDatatransform => transform (s.record (.transform id chunk)) id si
      | .wsDataend => .ok (s.setItem id si)

/-- `send_cb`. -/
def sendCb (s : State) (id : ItemId) (fd : Fd) (si : Sockitem) : Except Fault State :=
  if si.slength < 0 then .error .outOfBounds
  else
    match si.sendbuffer.load 0 si.slength.toNat with
    | none => .error .outOfBounds
    | some bytes =>
      let si := { si with
        sockfd := fd
        callback := .recvCb
        sendbuffer := Block.zero bufferLength }
      .ok (((s.record (.send id bytes)).setItem id si).epollCtlMod fd ⟨.inEt, id⟩)

/-- `accept_cb`. -/
def acceptCb (s : State) (k : Kernel) : Except Fault State :=
  if k.accept ≤ 0 then .ok s
  else
    let id := s.brk
    let si := { k.malloc with
      sockfd := k.accept
      callback := .recvCb
      status := .wsHandshark }
    let s := { s with
      opened := Function.update s.opened k.accept true
      heap := Function.update s.heap id (.live si)
      brk := id + 1 }
    .ok (s.epollCtlAdd k.accept ⟨.inEt, id⟩)

/-- `si->callback(si->sockfd, events, si)`, through the pointer in the event. -/
def call (s : State) (id : ItemId) (k : Kernel) : Except Fault State :=
  match s.heap id with
  | .live si =>
    match si.callback with
    | .acceptCb => acceptCb s k
    | .recvCb => recvCb O s id si.sockfd si k.recv
    | .sendCb => sendCb s id si.sockfd si
  | _ => .error .useAfterFree

/-- The first `if` of the loop. -/
def onIn (s : State) (ev : EpollEvent) (k : Kernel) : Except Fault State :=
  if ev.events.epollin then call O s ev.ptr k else .ok s

/-- The second `if` of the loop. -/
def onOut (s : State) (ev : EpollEvent) (k : Kernel) : Except Fault State :=
  if ev.events.epollout then call O s ev.ptr k else .ok s

/-- The body of the loop over the events: both `if`s, one after the other. -/
def dispatch (s : State) (ev : EpollEvent) (k₁ k₂ : Kernel) : Except Fault State :=
  match onIn O s ev k₁ with
  | .error e => .error e
  | .ok s => onOut O s ev k₂

/-! ## The transition system -/

/-- What the environment does next: `epoll_wait` returns a batch, or the next
event of the batch is handled with these system call results. -/
inductive Label where
  | wait (batch : List (Fd × Events))
  | handle (k₁ k₂ : Kernel)

/-- The kernel's side of one callback: a descriptor that `accept` returns is not
open yet, and `recv` returns between one byte and the buffer's size. -/
def Kernel.Sound (s : State) (k : Kernel) : Prop :=
  (0 < k.accept → s.opened k.accept = false) ∧
    ∀ chunk, k.recv = .data chunk → chunk ≠ [] ∧ chunk.length ≤ bufferLength

/-- The kernel's side of `epoll_wait`: registered descriptors, each at most once,
at most 512 of them, and of `IN` and `OUT` only what was asked for. -/
def SoundBatch (s : State) (batch : List (Fd × Events)) : Prop :=
  batch.length ≤ 512 ∧ (batch.map Prod.fst).Nodup ∧
    ∀ p ∈ batch, ∃ reg, s.epoll p.1 = some reg ∧
      (p.2.epollin = true → reg.events.epollin = true) ∧
      (p.2.epollout = true → reg.events.epollout = true)

/-- The events `epoll_wait` writes for a batch: the bits that are up, and the
pointer the descriptor was registered with. -/
def report (s : State) (batch : List (Fd × Events)) : List EpollEvent :=
  batch.filterMap fun p => (s.epoll p.1).map fun reg => ⟨p.2, reg.ptr⟩

/-- One step of the loop. -/
inductive Step (s : State) : Label → State → Prop
  | wait {batch : List (Fd × Events)} : s.ready = [] → SoundBatch s batch →
      Step s (.wait batch) { s with ready := report s batch }
  | handle {ev : EpollEvent} {rest : List EpollEvent} {k₁ k₂ : Kernel} {s' : State} :
      s.ready = ev :: rest → k₁.Sound s →
      (∀ t, onIn O { s with ready := rest } ev k₁ = .ok t → k₂.Sound t) →
      dispatch O { s with ready := rest } ev k₁ k₂ = .ok s' → Step s (.handle k₁ k₂) s'

/-- The address of the listening socket's item, the first one allocated. -/
def listener : ItemId := 0

/-- The state in which `main` enters the loop: one item, for the listening
socket, registered for `EPOLLIN`.  The other fields of the item are whatever
`malloc` returned. -/
def start (listenFd : Fd) (malloc : Sockitem) (opened : Fd → Bool) : State where
  heap := fun id => if id = listener then
    .live { malloc with sockfd := listenFd, callback := .acceptCb } else .unallocated
  brk := 1
  epoll := fun fd => if fd = listenFd then some ⟨.in, listener⟩ else none
  opened := opened
  ready := []
  log := []

/-- The server. -/
def server : TransitionSystem State Label where
  init := fun s => ∃ listenFd malloc opened, opened listenFd = true ∧
    s = start listenFd malloc opened
  step := fun s l s' => Step O s l s'

variable {O} {s : State}

/-! ## Runs that can be computed -/

/-- An item with nothing in it. -/
def blank : Sockitem where
  sockfd := 0
  callback := .recvCb
  recvbuffer := Block.zero bufferLength
  sendbuffer := Block.zero bufferLength
  rlength := 0
  slength := 0
  status := .wsHandshark

/-- System calls that give nothing. -/
def idle : Kernel := ⟨-1, blank, .again⟩

/-- The descriptor is registered for the bits. -/
def Reports (s : State) (fd : Fd) (ev : Events) : Bool :=
  match s.epoll fd with
  | some reg => (!ev.epollin || reg.events.epollin) && (!ev.epollout || reg.events.epollout)
  | none => false

/-- `Kernel.Sound`, computed. -/
def Kernel.sound (s : State) (k : Kernel) : Bool :=
  (decide (k.accept ≤ 0) || !s.opened k.accept) &&
    match k.recv with
    | .data chunk => decide (chunk ≠ []) && decide (chunk.length ≤ bufferLength)
    | _ => true

/-- The server under a script: one event in each batch, with what its callback's
system calls give.  `none` if the script asks for what a kernel does not do, or
runs into a fault. -/
def drive (O : OpenSSL) : State → List (Fd × Events × Kernel) → Option State
  | s, [] => some s
  | s, (fd, ev, k) :: script =>
    if s.ready = [] ∧ Reports s fd ev = true ∧ k.sound s = true then
      match report s [(fd, ev)] with
      | [e] =>
        match dispatch O { s with ready := [] } e k idle with
        | .ok s' => drive O s' script
        | .error _ => none
      | _ => none
    else none

theorem Kernel.sound_iff {k : Kernel} : k.sound s = true ↔ k.Sound s := by
  unfold Kernel.sound Kernel.Sound
  rw [Bool.and_eq_true, Bool.or_eq_true, decide_eq_true_eq, Bool.not_eq_true']
  refine and_congr ?_ ?_
  · rw [or_iff_not_imp_left, not_le]
  · cases k.recv <;> simp

theorem idle_sound (s : State) : idle.Sound s :=
  ⟨fun h => absurd h (by decide), fun _ h => by cases h⟩

/-- **What `drive` computes is a run.** -/
theorem drive_reachable {script : List (Fd × Events × Kernel)} {s' : State}
    (h : (server O).Reachable s) (hd : drive O s script = some s') :
    (server O).Reachable s' := by
  induction script generalizing s with
  | nil => exact Option.some.inj hd ▸ h
  | cons x script ih =>
    obtain ⟨fd, ev, k⟩ := x
    rw [drive] at hd
    split at hd
    · rename_i hcond
      obtain ⟨hready, hrep, hk⟩ := hcond
      split at hd
      · rename_i e he
        split at hd
        · rename_i t ht
          -- `epoll_wait` returns the one event, and the loop handles it
          have hbatch : SoundBatch s [(fd, ev)] := by
            refine ⟨by simp, by simp, ?_⟩
            rintro p hp
            rw [List.mem_singleton] at hp
            subst hp
            unfold Reports at hrep
            cases hreg : s.epoll fd with
            | none => simp [hreg] at hrep
            | some reg =>
              refine ⟨reg, rfl, ?_⟩
              rw [hreg] at hrep
              revert hrep
              cases ev.epollin <;> cases ev.epollout <;> simp
          have hwait := h.step (T := server O) (Step.wait (O := O) hready hbatch)
          rw [he] at hwait
          exact ih (hwait.step (T := server O) (Step.handle (O := O) rfl
            (Kernel.sound_iff.mp hk) (fun _ _ => idle_sound _) ht)) hd
        · cases hd
      · cases hd
    · cases hd

/-! ### The example of the RFC -/

/-- The key of the example handshake in the RFC. -/
def sampleKey : List UInt8 := ascii "dGhlIHNhbXBsZSBub25jZQ=="

/-- OpenSSL as far as the example needs it: SHA-1 on the one text that is
hashed, and the base64 filter. -/
def sampleOpenSSL : OpenSSL where
  sha1 := fun m => if m = sampleKey ++ guid then
      [0xb3, 0x7a, 0x4f, 0x2c, 0xc0, 0x62, 0x4f, 0x16, 0x90, 0xf6,
        0x46, 0x06, 0xcf, 0x38, 0x59, 0x45, 0xb2, 0xbe, 0xc4, 0xea]
    else List.replicate 20 0
  length_sha1 := by
    intro m
    split <;> rfl
  base64Bio := fun m => Rfc4648.encode m ++ [10]

/-- The upgrade request of the example. -/
def sampleRequest : List UInt8 :=
  ascii "GET /chat HTTP/1.1\r\nSec-WebSocket-Key: " ++ (sampleKey ++ ascii "\r\n\r\n")

/-- Connect, ask, get the response, and then send some chunks, each answered
before the next. -/
def session (data : List (List UInt8)) : List (Fd × Events × Kernel) :=
  (3, .in, { idle with accept := 5 }) ::
    (([sampleRequest] ++ data).flatMap fun chunk =>
      [(5, .inEt, { idle with recv := .data chunk }), (5, .outEt, idle)])

/-- The server, listening on descriptor `3`. -/
def sampleStart : State := start 3 blank fun fd => decide (fd = 3)

theorem sampleStart_reachable (O : OpenSSL) : (server O).Reachable sampleStart :=
  .init ⟨3, blank, _, rfl, rfl⟩

end EpollWebsocketC
end WebSocket
end UnixNetwork
