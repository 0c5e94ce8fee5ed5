import Mathlib.Data.Fin.Tuple.Basic
import Mathlib.Data.Fintype.Card
import UnixNetwork.Bytes.Block
import UnixNetwork.Multiplex.Descriptors
import UnixNetwork.Transition.System

/-!
# The `poll` server

`poll_study/poll.cpp`.  The array given to `poll` is at the same time the table of clients.
Its first entry is the listener's; in the others `fd` is set to `-1`, and their `events` and
`revents` are left as they are found.

A new client is put into the first free entry, between `poll` and the scan that looks for
`POLLIN`.  If `poll` was given that entry, it has set `revents` to zero there, as it does for
a negative `fd`.  If not, `revents` is what the memory held when the program started.

`iteration` is one round of the loop, given what the system calls return.  It gives no state
when the program calls `exit`.
-/

namespace UnixNetwork
namespace Poll

open Bytes Multiplex

/-- `Open_Max`. -/
def openMax : ℕ := 1024

instance : NeZero openMax := ⟨by decide⟩

/-- `BufferSize`. -/
def bufferSize : ℕ := 1500

/-- The bits of `events` and `revents`. -/
abbrev POLLIN : UInt16 := 1

@[inherit_doc POLLIN] abbrev POLLERR : UInt16 := 8

@[inherit_doc POLLIN] abbrev POLLHUP : UInt16 := 16

@[inherit_doc POLLIN] abbrev POLLNVAL : UInt16 := 32

/-- The `errno` the program asks for. -/
abbrev ECONNREFUSED : ℕ := 111

/-- `struct pollfd`. -/
structure PollFd where
  fd : Fd
  events : UInt16
  revents : UInt16

/-- The local variables of `main`, and the descriptors in use. -/
structure State where
  client : Fin openMax → PollFd
  maxI : Fin openMax
  listenFd : Fd
  /-- Descriptors in use that are not clients. -/
  others : Finset Fd
  /-- Clients accepted and not closed yet. -/
  clients : Finset Fd

/-- What `poll` does: it succeeds and has something to say about each entry, or it fails and
leaves anything in them. -/
inductive PollResult where
  | ok (found : Fin openMax → UInt16)
  | fail (left : Fin openMax → UInt16)

/-- What the system calls of one round give, and what lies behind `buff` in memory. -/
structure Kernel where
  poll : PollResult
  accept : Fd
  read : Fin openMax → ReadResult bufferSize
  behind : List UInt8

namespace State

/-- The `revents` of an entry that was given to `poll`. -/
def polled (c : PollFd) (found : UInt16) : UInt16 :=
  if c.fd < 0 then 0 else found &&& (c.events ||| POLLERR ||| POLLHUP ||| POLLNVAL)

/-- `poll(client, max_i + 1, -1)`. -/
def poll (s : State) (r : PollResult) : State :=
  { s with
    client := fun i =>
      if i ≤ s.maxI then
        { s.client i with
          revents := match r with
            | .ok found => polled (s.client i) (found i)
            | .fail left => left i }
      else s.client i }

/-- What `poll` returns: the number of entries with something in `revents`, or `-1`. -/
def nReady (s : State) : PollResult → ℤ
  | .ok found =>
    (Finset.univ.filter fun i => i ≤ s.maxI ∧ polled (s.client i) (found i) ≠ 0).card
  | .fail _ => -1

/-- The first free entry after the listener's. -/
def freeSlot (s : State) : Option (Fin openMax) :=
  Fin.find? fun i => decide (0 < i ∧ (s.client i).fd < 0)

/-- A new client gets an entry, whose `revents` is not set. -/
def adopt (s : State) (index : Fin openMax) (connFd : Fd) : State :=
  { s with
    client := Function.update s.client index
      { s.client index with fd := connFd, events := POLLIN }
    maxI := if s.maxI < index then index else s.maxI
    clients := insert connFd s.clients }

/-- `Close(sock_fd); client[i].fd = -1;` -/
def release (s : State) (i : Fin openMax) : State :=
  { s with
    client := Function.update s.client i { s.client i with fd := -1 }
    others := s.others.erase (s.client i).fd
    clients := s.clients.erase (s.client i).fd }

/-- What is done with a ready client, by the result of `Read`. -/
def handle (s : State) (i : Fin openMax) (behind : List UInt8) (buff : Block UInt8 bufferSize) :
    ReadResult bufferSize → Option (State × Block UInt8 bufferSize) × List Action
  | .fail errno =>
    if errno = ECONNREFUSED then
      (some (s.release i, buff), [.read (s.client i).fd, .close (s.client i).fd])
    else (none, [.read (s.client i).fd])
  | .eof => (some (s.release i, buff), [.read (s.client i).fd, .close (s.client i).fd])
  | .data bytes _ hlen =>
    let buff := buff.storeFront (bytes.map toUpper) (by rw [List.length_map]; exact hlen)
    (some (s, buff), [.read (s.client i).fd,
      .write (s.client i).fd (ascii "server data : " ++ stringOf buff.toList behind)])

/-- The loop over `client`, from some index on. -/
def scan (behind : List UInt8) (read : Fin openMax → ReadResult bufferSize) :
    List (Fin openMax) → ℤ → Block UInt8 bufferSize → State → Option State × List Action
  | [], _, _, s => (some s, [])
  | i :: rest, nReady, buff, s =>
    if (s.client i).fd < 0 then scan behind read rest nReady buff s
    else if (s.client i).revents &&& POLLIN ≠ 0 then
      match s.handle i behind buff (read i) with
      | (none, log) => (none, log)
      | (some (s', buff'), log) =>
        if nReady + 1 ≤ 0 then (some s', log)
        else
          ((scan behind read rest (nReady + 1) buff' s').1,
            log ++ (scan behind read rest (nReady + 1) buff' s').2)
    else scan behind read rest nReady buff s

/-- The indices `1` to `max_i`. -/
def indices (s : State) : List (Fin openMax) :=
  (List.finRange openMax).filter fun i => decide (0 < i ∧ i ≤ s.maxI)

/-- One round of the loop of `main`. -/
def iteration (s : State) (k : Kernel) : Option State × List Action :=
  let nReady := s.nReady k.poll
  let s := s.poll k.poll
  if (s.client 0).revents &&& POLLIN ≠ 0 then
    match s.freeSlot with
    | none => (none, [])
    | some index =>
      let s := s.adopt index k.accept
      if nReady - 1 ≤ 0 then (some s, [])
      else scan k.behind k.read s.indices (nReady - 1) (Block.zero bufferSize) s
  else scan k.behind k.read s.indices nReady (Block.zero bufferSize) s

/-- `main`, up to its loop, given what the array held before. -/
def start (listenFd : Fd) (others : Finset Fd) (junk : Fin openMax → PollFd) : State where
  client := fun i =>
    if i = 0 then { junk 0 with fd := listenFd, events := POLLIN } else { junk i with fd := -1 }
  maxI := 0
  listenFd := listenFd
  others := others
  clients := ∅

end State

/-! ## What the operations do -/

variable {s : State} {i : Fin openMax}

theorem client_adopt_self (s : State) (i : Fin openMax) (connFd : Fd) :
    (s.adopt i connFd).client i = { s.client i with fd := connFd, events := POLLIN } :=
  Function.update_self _ _ _

theorem client_adopt_of_ne (s : State) {i j : Fin openMax} (hji : j ≠ i) (connFd : Fd) :
    (s.adopt i connFd).client j = s.client j :=
  Function.update_of_ne hji _ _

theorem maxI_adopt (s : State) (i : Fin openMax) (connFd : Fd) :
    (s.adopt i connFd).maxI = max s.maxI i := by
  unfold State.adopt
  dsimp only
  split
  · rename_i hlt
    exact (max_eq_right hlt.le).symm
  · rename_i hle
    exact (max_eq_left (not_lt.mp hle)).symm

theorem client_release_of_ne (s : State) {i j : Fin openMax} (hji : j ≠ i) :
    (s.release i).client j = s.client j :=
  Function.update_of_ne hji _ _

/-- `poll` changes `revents` only. -/
theorem fd_poll (s : State) (r : PollResult) (i : Fin openMax) :
    ((s.poll r).client i).fd = (s.client i).fd := by
  unfold State.poll
  dsimp only
  split <;> rfl

/-- It sets `revents` in the entries it was given, and leaves the others alone. -/
theorem revents_poll (s : State) (found : Fin openMax → UInt16) (i : Fin openMax) :
    ((s.poll (.ok found)).client i).revents =
      if i ≤ s.maxI then State.polled (s.client i) (found i) else (s.client i).revents := by
  unfold State.poll
  dsimp only
  split <;> rfl

theorem indices_poll (s : State) (r : PollResult) : (s.poll r).indices = s.indices := by
  unfold State.indices
  rfl

theorem freeSlot_poll (s : State) (r : PollResult) : (s.poll r).freeSlot = s.freeSlot := by
  unfold State.freeSlot
  congr 1
  funext i
  rw [fd_poll]

/-- A new client is accepted in this round. -/
def Listening (s : State) (r : PollResult) : Prop :=
  ((s.poll r).client 0).revents &&& POLLIN ≠ 0

/-! ## The four ways through the loop body -/

theorem iteration_of_not_listening {k : Kernel} (h : ¬ Listening s k.poll) :
    s.iteration k = State.scan k.behind k.read s.indices (s.nReady k.poll) (Block.zero bufferSize)
      (s.poll k.poll) := by
  unfold State.iteration
  rw [← indices_poll s k.poll]
  exact if_neg h

theorem iteration_of_listening {k : Kernel} (h : Listening s k.poll) :
    s.iteration k = match s.freeSlot with
      | none => (none, [])
      | some i =>
        if s.nReady k.poll - 1 ≤ 0 then (some ((s.poll k.poll).adopt i k.accept), [])
        else State.scan k.behind k.read ((s.poll k.poll).adopt i k.accept).indices
          (s.nReady k.poll - 1) (Block.zero bufferSize) ((s.poll k.poll).adopt i k.accept) := by
  have h' : ((s.poll k.poll).client 0).revents &&& POLLIN ≠ 0 := h
  unfold State.iteration
  dsimp only
  rw [if_pos h', freeSlot_poll]

theorem iteration_of_full {k : Kernel} (h : Listening s k.poll) (hfree : s.freeSlot = none) :
    s.iteration k = (none, []) := by
  rw [iteration_of_listening h, hfree]

theorem iteration_of_continue {k : Kernel} (h : Listening s k.poll) (hfree : s.freeSlot = some i)
    (hone : s.nReady k.poll ≤ 1) :
    s.iteration k = (some ((s.poll k.poll).adopt i k.accept), []) := by
  rw [iteration_of_listening h, hfree]
  exact if_pos (by omega)

theorem iteration_of_scan {k : Kernel} (h : Listening s k.poll) (hfree : s.freeSlot = some i)
    (hmany : 1 < s.nReady k.poll) :
    s.iteration k = State.scan k.behind k.read ((s.poll k.poll).adopt i k.accept).indices
      (s.nReady k.poll - 1) (Block.zero bufferSize) ((s.poll k.poll).adopt i k.accept) := by
  rw [iteration_of_listening h, hfree]
  exact if_neg (by omega)

/-! ## The transition system -/

/-- `accept` returns a descriptor that is not in use. -/
structure Kernel.Sound (s : State) (k : Kernel) : Prop where
  nonneg : 0 ≤ k.accept
  others : k.accept ∉ s.others
  clients : k.accept ∉ s.clients

/-- The server. -/
def server : TransitionSystem State Kernel where
  init := fun s => ∃ (listenFd : Fd) (others : Finset Fd) (junk : Fin openMax → PollFd),
    0 ≤ listenFd ∧ listenFd ∈ others ∧ s = State.start listenFd others junk
  step := fun s k s' => k.Sound s ∧ (s.iteration k).1 = some s'

end Poll
end UnixNetwork
