import Mathlib.Data.Finset.Basic
import Mathlib.Data.Fin.Tuple.Basic
import UnixNetwork.Bytes.Block
import UnixNetwork.Multiplex.Descriptors
import UnixNetwork.Transition.System

/-!
# The reactor with a table of events

`epoll_reactor/reactor.cpp`: a table of 1025 events, of which the last one belongs to the
listening socket and the others are given to clients by first fit.  An event holds its
descriptor, what it waits for, the callback for that, and a buffer.

The search for a free slot has no failure case: if the first 1024 slots are in use, its
counter stops at the last one.  `firstFree` returns it then, as the source does.

`clients` are the descriptors accepted and not closed yet, and `received` and `sent` what
was read from a client and written to it since it was accepted.  The environment chooses
what `epoll_wait` reports, and what `accept` and `read` give.  `Write` writes all it is given.
A step that would leave the buffer or call a null pointer is not a step.
-/

namespace UnixNetwork
namespace EpollReactor

open Bytes Multiplex

/-- `_EVENT_SIZE_`. -/
def eventSize : ℕ := 1024

/-- `_BUF_LEN_`, and the size of `buf`. -/
def bufLen : ℕ := 1024

/-- The bits of `events` the program uses. -/
abbrev EPOLLIN : UInt32 := 1

@[inherit_doc EPOLLIN] abbrev EPOLLOUT : UInt32 := 4

/-- The functions `call_back` can point to. -/
inductive Callback where
  | initAccept
  | readData
  | senddata
  deriving DecidableEq

/-- `struct xx_event`.  Its `arg` and `epfd` are never used. -/
structure XxEvent where
  fd : Fd
  events : UInt32
  callBack : Option Callback
  buf : Block UInt8 bufLen
  buflen : ℤ

/-- An index of `myevents`. -/
abbrev Slot := Fin (eventSize + 1)

/-- `struct epoll_event`, with its `data.ptr`. -/
structure EpollEvent where
  events : UInt32
  ptr : Slot
  deriving DecidableEq

/-- The process and its kernel. -/
structure State where
  /-- The table. -/
  myevents : Slot → XxEvent
  /-- The local variable `lfd` of `main`. -/
  lfd : Fd
  /-- The interest list. -/
  epoll : Fd → Option EpollEvent
  /-- What is left of the last batch. -/
  ready : List EpollEvent
  /-- The other descriptors in use. -/
  others : Finset Fd
  clients : Finset Fd
  received : Fd → List UInt8
  sent : Fd → List UInt8

/-- What the system calls of one callback give. -/
structure Kernel where
  accept : Fd
  read : ReadResult bufLen

namespace State

/-- The descriptor is in use. -/
def Opened (s : State) (fd : Fd) : Prop := fd ∈ s.others ∨ fd ∈ s.clients

instance (s : State) (fd : Fd) : Decidable (s.Opened fd) := inferInstanceAs (Decidable (_ ∨ _))

/-- `myevents[i] = ev`. -/
def setEvent (s : State) (i : Slot) (ev : XxEvent) : State :=
  { s with myevents := Function.update s.myevents i ev }

/-- `epoll_ctl(gepfd, EPOLL_CTL_ADD, fd, &epv)`. -/
def epollCtlAdd (s : State) (fd : Fd) (epv : EpollEvent) : State :=
  if s.Opened fd ∧ s.epoll fd = none then
    { s with epoll := Function.update s.epoll fd (some epv) }
  else s

/-- `epoll_ctl(gepfd, EPOLL_CTL_MOD, fd, &epv)`. -/
def epollCtlMod (s : State) (fd : Fd) (epv : EpollEvent) : State :=
  if s.epoll fd = none then s else { s with epoll := Function.update s.epoll fd (some epv) }

/-- `epoll_ctl(gepfd, EPOLL_CTL_DEL, fd, &epv)`. -/
def epollCtlDel (s : State) (fd : Fd) : State :=
  { s with epoll := Function.update s.epoll fd none }

/-- `Close(fd)`, which also takes the descriptor off the interest list. -/
def close (s : State) (fd : Fd) : State :=
  { s with
    others := s.others.erase fd
    clients := s.clients.erase fd
    epoll := Function.update s.epoll fd none }

/-! ## The callbacks -/

/-- `eventadd`. -/
def eventadd (s : State) (fd : Fd) (events : UInt32) (callBack : Callback) (i : Slot) : State :=
  (s.setEvent i { s.myevents i with fd := fd, events := events, callBack := some callBack })
    |>.epollCtlAdd fd ⟨events, i⟩

/-- `eventset`. -/
def eventset (s : State) (fd : Fd) (events : UInt32) (callBack : Callback) (i : Slot) : State :=
  (s.setEvent i { s.myevents i with fd := fd, events := events, callBack := some callBack })
    |>.epollCtlMod fd ⟨events, i⟩

/-- `eventdel`. -/
def eventdel (s : State) (i : Slot) (fd : Fd) : State :=
  (s.setEvent i { fd := 0, events := 0, callBack := none, buf := Block.zero bufLen, buflen := 0 })
    |>.epollCtlDel fd

/-- `senddata`. -/
def senddata (s : State) (fd : Fd) (i : Slot) : Option State :=
  let ev := s.myevents i
  if 0 ≤ ev.buflen then
    (ev.buf.load 0 ev.buflen.toNat).map fun bytes =>
      { s with sent := Function.update s.sent fd (s.sent fd ++ bytes) }.eventset fd EPOLLIN .readData i
  else none

/-- `readData`. -/
def readData (s : State) (fd : Fd) (i : Slot) : ReadResult bufLen → State
  | .data bytes _ hlen =>
    let ev := s.myevents i
    let s := s.setEvent i { ev with buf := ev.buf.storeFront bytes hlen, buflen := bytes.length }
    { s with received := Function.update s.received fd (s.received fd ++ bytes) }.eventset fd
      EPOLLOUT .senddata i
  | .eof => ((s.setEvent i { s.myevents i with buflen := 0 }).close fd).eventdel i fd
  | .fail _ => s.setEvent i { s.myevents i with buflen := -1 }

/-- The first slot for which the loop of `initAccept` stops. -/
def freeSlot (s : State) : Option (Fin eventSize) :=
  Fin.find? fun i => decide ((s.myevents i.castSucc).fd = 0)

/-- The counter of that loop, when it is left. -/
def firstFree (s : State) : Slot :=
  match s.freeSlot with
  | some i => i.castSucc
  | none => Fin.last eventSize

/-- `initAccept`, once `Accept` has returned a descriptor. -/
def initAccept (s : State) (cfd : Fd) : State :=
  { s with
    clients := insert cfd s.clients
    received := Function.update s.received cfd []
    sent := Function.update s.sent cfd [] }.eventadd cfd EPOLLIN .readData s.firstFree

/-- The body of the loop over the events. -/
def dispatch (s : State) (ev : EpollEvent) (k : Kernel) : Option State :=
  let xe := s.myevents ev.ptr
  if xe.events &&& ev.events ≠ 0 then
    match xe.callBack with
    | some .initAccept => some (s.initAccept k.accept)
    | some .readData => some (s.readData xe.fd ev.ptr k.read)
    | some .senddata => s.senddata xe.fd ev.ptr
    | none => none
  else some s

/-- `main`, up to its loop: `lfd` has its slot and is on the interest list. -/
def start (lfd : Fd) (others : Finset Fd) : State :=
  { myevents := fun _ => ⟨0, 0, none, Block.zero bufLen, 0⟩
    lfd := lfd
    epoll := fun _ => none
    ready := []
    others := others
    clients := ∅
    received := fun _ => []
    sent := fun _ => [] : State }.eventadd lfd EPOLLIN .initAccept (Fin.last eventSize)

end State

/-! ## The transition system -/

/-- What the environment does next: `epoll_wait` returns, or the next event of its batch is
handled with these system call results. -/
inductive Label where
  | wait (batch : List (Fd × UInt32))
  | handle (k : Kernel)

/-- The events `epoll_wait` writes for a batch. -/
def report (s : State) (batch : List (Fd × UInt32)) : List EpollEvent :=
  batch.filterMap fun p => (s.epoll p.1).map fun reg => ⟨p.2, reg.ptr⟩

/-- One step: a batch of at most 1024 registered descriptors, each at most once; or the next
event, where `accept` returns a descriptor that is not in use. -/
inductive Step (s : State) : Label → State → Prop
  | wait {batch : List (Fd × UInt32)} : s.ready = [] → batch.length ≤ 1024 →
      (batch.map Prod.fst).Nodup → (∀ p ∈ batch, s.epoll p.1 ≠ none) →
      Step s (.wait batch) { s with ready := report s batch }
  | handle {ev : EpollEvent} {rest : List EpollEvent} {k : Kernel} {s' : State} :
      s.ready = ev :: rest → 0 ≤ k.accept → ¬ s.Opened k.accept →
      State.dispatch { s with ready := rest } ev k = some s' → Step s (.handle k) s'

/-- The reactor, in a process whose descriptor `0` is in use. -/
def server : TransitionSystem State Label where
  init := fun s => ∃ lfd others, 0 ∈ others ∧ lfd ∈ others ∧ s = State.start lfd others
  step := fun s l s' => Step s l s'

end EpollReactor
end UnixNetwork
