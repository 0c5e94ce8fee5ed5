import Mathlib.Data.Finset.Card
import Mathlib.Data.Fintype.Sum
import Mathlib.Tactic.DeriveFintype
import UnixNetwork.Multiplex.Descriptors
import UnixNetwork.Transition.System

/-!
# The server with many ports

`mul_port_client_epoll/server_mulport_epoll.c` as a transition system: `main` accepts and
hands out the events, `n` workers do the jobs, and the kernel keeps the queues.  A job is
the descriptor it is for.  The work queue is the stack that `WorkQueue.stack_step` shows
it to be, so each of its calls is one step here.

`client_job` and `client_data_process` are the same function, done by a worker and by
`main`: `Proc` is where in it a thread is.  Each system call is a step of its own, and so
is `curfds--`.

Of the kernel the model has the queue of each listening socket, the receive queue of each
connection and whether anything arrived there since the descriptor was last reported
(`news`), which is all that an edge-triggered `epoll_wait` reports.  What arrives, which
descriptor `accept` gives out of those not in use, and how many of the events `epoll_wait`
reports is not the program's choice.  A batch that would leave `events` is not a step.

`accepts` and `closes` count the calls that returned a descriptor and that closed it, or
tried to; the program does not.
-/

namespace UnixNetwork
namespace MultiPort

open Multiplex

/-- `MAX_BUFFER`. -/
def maxBuffer : ℕ := 128

/-- `MAX_EPOLLSIZE`. -/
def maxEpollsize : ℕ := 100000

/-- The `errno` a call on a closed descriptor sets. -/
abbrev EBADF : ℕ := 9

abbrev ECONNRESET : ℕ := 104

/-- What `nRecv` returns when the connection is over. -/
abbrev ENOTCONN : ℕ := 107

/-- What it returns when nothing came for 5 ms. -/
abbrev ETIMEDOUT : ℕ := 110

/-! ## The kernel -/

/-- What arrives at a connection. -/
inductive Arrival where
  | data (bytes : List UInt8)
  | fin
  | rst
  /-- room to write, for `EPOLLOUT` -/
  | room

/-- A connection, accepted or not. -/
structure Socket where
  received : List UInt8
  sent : List UInt8
  /-- the peer sends no more -/
  eof : Bool
  /-- an `ECONNRESET` that was not returned yet -/
  error : Bool
  /-- `POLLHUP` -/
  hup : Bool
  news : Bool

namespace Socket

/-- A new connection. -/
def fresh : Socket := ⟨[], [], false, false, false, false⟩

def arrive (c : Socket) : Arrival → Socket
  | .data bytes => { c with received := c.received ++ bytes, news := true }
  | .fin => { c with eof := true, news := true }
  | .rst => { c with eof := true, error := true, hup := true, news := true }
  | .room => { c with news := true }

/-- `poll` for reading returns at once. -/
def Readable (c : Socket) : Prop := c.received ≠ [] ∨ c.eof = true ∨ c.error = true

instance (c : Socket) : Decidable c.Readable := inferInstanceAs (Decidable (_ ∨ _ ∨ _))

@[simp] theorem arrive_news (c : Socket) (a : Arrival) : (c.arrive a).news = true := by
  cases a <;> rfl

end Socket

/-- A listening socket. -/
structure Listener where
  queue : List Socket
  news : Bool

/-- What the call of `poll` in `nRecv` gives. -/
inductive PollResult where
  | hup
  | ready
  | timeout
  | fail (errno : ℕ)

/-! ## The state -/

/-- `main` or a worker. -/
inductive Thread (n : ℕ) where
  | main
  | worker (w : Fin n)
  deriving DecidableEq, Fintype

/-- Where a thread is in `client_job` or `client_data_process`. -/
inductive Proc where
  | idle
  /-- in the loop of `nRecv`, with what is in the buffer -/
  | recv (fd : Fd) (data : List UInt8) (retCode : ℕ)
  | poll (fd : Fd) (data : List UInt8) (retCode : ℕ)
  /-- `nRecv` has returned -/
  | received (fd : Fd) (data : List UInt8) (retCode : ℕ)
  | send (fd : Fd) (buffer : List UInt8)
  /-- behind `curfds--` -/
  | close (fd : Fd)
  deriving DecidableEq

/-- Where `main` is in its loop; `rest` are the events it has not come to. -/
inductive MainPc where
  | wait
  | events (rest : List Fd)
  /-- `accept` has returned this descriptor -/
  | count (fd : Fd) (rest : List Fd)
  /-- behind `curfds++` -/
  | add (fd : Fd) (rest : List Fd)
  | returned
  deriving DecidableEq

/-- The listening sockets.  Descriptor 0 was open when the program started. -/
structure Ports where
  sockfds : List Fd
  pos : ∀ fd ∈ sockfds, 0 < fd

/-- `MAX_PORT`. -/
def maxPort : ℕ := 100

/-- The listening sockets when 0 to 2 are open, and `epoll_fd` is 3. -/
def ports : Ports where
  sockfds := (List.range maxPort).map fun i : ℕ => (i : Fd) + 4
  pos := by
    intro fd hfd
    obtain ⟨i, -, rfl⟩ := List.mem_map.mp hfd
    show (0 : ℤ) < (i : ℤ) + 4
    omega

/-- The process and its kernel. -/
structure State (n : ℕ) where
  curfds : ℤ
  nRun : Bool
  main : MainPc
  jobs : List Fd
  proc : Thread n → Proc
  listener : Fd → Listener
  /-- The descriptors accepted and not closed. -/
  clients : Finset Fd
  socket : Fd → Socket
  /-- The clients that are in the interest list. -/
  watched : Finset Fd
  accepts : Fd → ℕ
  closes : Fd → ℕ

variable {n : ℕ}

namespace State

def setProc (s : State n) (t : Thread n) (p : Proc) : State n :=
  { s with proc := Function.update s.proc t p }

def setSocket (s : State n) (fd : Fd) (c : Socket) : State n :=
  { s with socket := Function.update s.socket fd c }

def setListener (s : State n) (fd : Fd) (c : Listener) : State n :=
  { s with listener := Function.update s.listener fd c }

/-- What was reported is not news any more. -/
def reported (s : State n) (fds : List Fd) : State n :=
  { s with
    listener := fun fd => { s.listener fd with news := (s.listener fd).news && fd ∉ fds }
    socket := fun fd => { s.socket fd with news := (s.socket fd).news && fd ∉ fds } }

end State

/-! ## The code -/

/-- `listenfd`. -/
def listenfd (fd : Fd) : List Fd → Fd
  | [] => 0
  | fd' :: fds => if fd = fd' then fd' else listenfd fd fds

/-- The descriptors an edge-triggered `epoll_wait` can report. -/
def News (p : Ports) (s : State n) (fd : Fd) : Prop :=
  fd ∈ p.sockfds ∧ (s.listener fd).news = true ∨ fd ∈ s.watched ∧ (s.socket fd).news = true

instance (p : Ports) (s : State n) (fd : Fd) : Decidable (News p s fd) :=
  inferInstanceAs (Decidable (_ ∧ _ ∨ _ ∧ _))

/-- `epoll_wait(epoll_fd, events, curfds, 5)`. -/
def epollWait (p : Ports) (s : State n) (fds : List Fd) : Option (State n) :=
  if s.main = .wait ∧ 0 < s.curfds ∧ (fds.length : ℤ) ≤ s.curfds ∧ fds.length ≤ maxEpollsize ∧
      fds.Nodup ∧ ∀ fd ∈ fds, News p s fd then
    some { s.reported fds with main := .events fds }
  else none

/-- `accept`, which waits for a connection, in the branch for listening sockets. -/
def acceptStep (p : Ports) (s : State n) (clientfd : Fd) : Option (State n) :=
  match s.main with
  | .events (fd :: rest) =>
    let sockfd := listenfd fd p.sockfds
    if sockfd ≠ 0 ∧ s.proc .main = .idle ∧ 0 ≤ clientfd ∧ clientfd ∉ s.clients ∧
        clientfd ∉ p.sockfds then
      match (s.listener sockfd).queue with
      | c :: queue =>
        some { (s.setListener sockfd { s.listener sockfd with queue := queue }).setSocket clientfd c with
          clients := insert clientfd s.clients
          accepts := Function.update s.accepts clientfd (s.accepts clientfd + 1)
          main := .count clientfd rest }
      | [] => none
    else none
  | _ => none

/-- `main`, where it makes no call whose failure it looks at.  `EPOLL_CTL_ADD` fails for a
descriptor that a worker has closed. -/
def mainStep (p : Ports) (s : State n) : Option (State n) :=
  match s.main with
  | .events [] => if s.proc .main = .idle then some { s with main := .wait } else none
  | .events (fd :: rest) =>
    if listenfd fd p.sockfds = 0 ∧ s.proc .main = .idle then
      if s.nRun then some { s.setProc .main (.recv fd [] 0) with main := .events rest }
      else some { s with jobs := fd :: s.jobs, main := .events rest }
    else none
  | .count fd rest =>
    some { s with nRun := s.nRun || decide (s.curfds > 1000 * 1000), curfds := s.curfds + 1,
                  main := .add fd rest }
  | .add fd rest =>
    some { s with watched := if fd ∈ s.clients then insert fd s.watched else s.watched,
                  main := .events rest }
  | .wait | .returned => none

/-- A call that fails and ends `main`: `epoll_wait`, or `accept`. -/
def failStep (p : Ports) (s : State n) : Option (State n) :=
  match s.main with
  | .wait => some { s with main := .returned }
  | .events (fd :: _) =>
    if listenfd fd p.sockfds ≠ 0 ∧ s.proc .main = .idle then some { s with main := .returned } else none
  | _ => none

/-- A worker gets a job. -/
def takeStep (s : State n) (w : Fin n) : Option (State n) :=
  match s.proc (.worker w), s.jobs with
  | .idle, fd :: jobs => some { s.setProc (.worker w) (.recv fd [] 0) with jobs := jobs }
  | _, _ => none

/-- `recv` in `nRecv`, and what depends on its result. -/
def recvStep (s : State n) (t : Thread n) : Option (State n) :=
  match s.proc t with
  | .recv fd data retCode =>
    let c := s.socket fd
    if fd ∉ s.clients then some (s.setProc t (.poll fd data EBADF))
    else if c.received ≠ [] then
      let bytes := data ++ c.received.take (maxBuffer - data.length)
      some ((s.setSocket fd { c with received := c.received.drop (maxBuffer - data.length) }).setProc t
        (if bytes.length < maxBuffer then .recv fd bytes retCode else .received fd bytes retCode))
    else if c.error then
      some ((s.setSocket fd { c with error := false }).setProc t (.poll fd data ECONNRESET))
    else if c.eof then some (s.setProc t (.received fd data ENOTCONN))
    else some (s.setProc t (.poll fd data retCode))
  | _ => none

/-- The results `poll` can have.  A descriptor that is not open is ready at once. -/
def Possible (s : State n) (fd : Fd) : PollResult → Prop
  | .hup => fd ∈ s.clients ∧ (s.socket fd).hup = true
  | .ready => fd ∈ s.clients → (s.socket fd).hup = false ∧ (s.socket fd).Readable
  | .timeout => fd ∈ s.clients ∧ (s.socket fd).hup = false ∧ ¬ (s.socket fd).Readable
  | .fail _ => True

instance (s : State n) (fd : Fd) : (result : PollResult) → Decidable (Possible s fd result)
  | .hup => inferInstanceAs (Decidable (_ ∧ _))
  | .ready => inferInstanceAs (Decidable (_ → _ ∧ _))
  | .timeout => inferInstanceAs (Decidable (_ ∧ _ ∧ _))
  | .fail _ => inferInstanceAs (Decidable True)

/-- `poll` in `nRecv`, and what depends on its result. -/
def pollStep (s : State n) (t : Thread n) (result : PollResult) : Option (State n) :=
  match s.proc t with
  | .poll fd data retCode =>
    if Possible s fd result then
      match result with
      | .hup => some (s.setProc t (.received fd data ENOTCONN))
      | .ready => some (s.setProc t (.recv fd data retCode))
      | .timeout => some (s.setProc t (.received fd data ETIMEDOUT))
      | .fail errno =>
        if errno = EINTR then some (s.setProc t (.recv fd data retCode))
        else some (s.setProc t (.recv fd data (if errno ≠ 0 then errno else EINTR)))
    else none
  | _ => none

/-- What follows `nRecv`.  `strlen` sees what lies behind the buffer if there is no zero in it. -/
def doneStep (s : State n) (t : Thread n) (behind : List UInt8) : Option (State n) :=
  match s.proc t with
  | .received fd data retCode =>
    if 0 < data.length then
      if s.nRun ∨ data.head? = some 97 then
        some (s.setProc t (.send fd
          (stringOf (data ++ List.replicate (maxBuffer - data.length) 0) behind)))
      else some (s.setProc t .idle)
    else if retCode = ENOTCONN then some { s.setProc t (.close fd) with curfds := s.curfds - 1 }
    else some (s.setProc t .idle)
  | _ => none

/-- `nSend`, which may give up after some of the bytes. -/
def sendStep (s : State n) (t : Thread n) (count : ℕ) : Option (State n) :=
  match s.proc t with
  | .send fd buffer =>
    if fd ∈ s.clients then
      let c := s.socket fd
      some ((s.setSocket fd { c with sent := c.sent ++ buffer.take count }).setProc t .idle)
    else some (s.setProc t .idle)
  | _ => none

/-- `close`. -/
def closeStep (s : State n) (t : Thread n) : Option (State n) :=
  match s.proc t with
  | .close fd =>
    some { s.setProc t .idle with
      clients := s.clients.erase fd
      watched := s.watched.erase fd
      closes := Function.update s.closes fd (s.closes fd + 1) }
  | _ => none

/-- Who does the next step, and what the kernel answers. -/
inductive Label (n : ℕ) where
  | connect (port : Fd)
  | early (port : Fd) (i : ℕ) (a : Arrival)
  | arrive (fd : Fd) (a : Arrival)
  | report (fds : List Fd)
  | accept (clientfd : Fd)
  | main
  | fail
  | take (w : Fin n)
  | recv (t : Thread n)
  | poll (t : Thread n) (result : PollResult)
  | done (t : Thread n) (behind : List UInt8)
  | send (t : Thread n) (count : ℕ)
  | close (t : Thread n)

/-- One step.  When `main` has returned, the process is gone. -/
def step (p : Ports) (s : State n) (l : Label n) : Option (State n) :=
  if s.main = .returned then none
  else
    match l with
    | .connect port =>
      if port ∈ p.sockfds then
        some (s.setListener port ⟨(s.listener port).queue ++ [Socket.fresh], true⟩)
      else none
    | .early port i a =>
      some (s.setListener port
        { s.listener port with queue := (s.listener port).queue.modify i (Socket.arrive · a) })
    | .arrive fd a =>
      if fd ∈ s.clients then some (s.setSocket fd ((s.socket fd).arrive a)) else none
    | .report fds => epollWait p s fds
    | .accept clientfd => acceptStep p s clientfd
    | .main => mainStep p s
    | .fail => failStep p s
    | .take w => takeStep s w
    | .recv t => recvStep s t
    | .poll t result => pollStep s t result
    | .done t behind => doneStep s t behind
    | .send t count => sendStep s t count
    | .close t => closeStep s t

/-- When `main` comes to its loop. -/
def start (n : ℕ) : State n where
  curfds := 1
  nRun := false
  main := .wait
  jobs := []
  proc := fun _ => .idle
  listener := fun _ => ⟨[], false⟩
  clients := ∅
  socket := fun _ => Socket.fresh
  watched := ∅
  accepts := fun _ => 0
  closes := fun _ => 0

/-- The server with `n` workers. -/
def server (n : ℕ) (p : Ports) : TransitionSystem (State n) (Label n) where
  init := fun s => s = start n
  step := fun s l s' => step p s l = some s'

/-! ## What a step does -/

theorem listenfd_of_mem {fd : Fd} {fds : List Fd} (h : fd ∈ fds) : listenfd fd fds = fd := by
  induction fds with
  | nil => cases h
  | cons fd' fds ih =>
    rw [listenfd]
    split
    · exact Eq.symm ‹_›
    · rename_i hne
      exact ih ((List.mem_cons.mp h).resolve_left hne)

theorem listenfd_of_not_mem {fd : Fd} {fds : List Fd} (h : fd ∉ fds) : listenfd fd fds = 0 := by
  induction fds with
  | nil => rfl
  | cons fd' fds ih =>
    rw [List.mem_cons, not_or] at h
    rw [listenfd, if_neg h.1]
    exact ih h.2

/-- What `listenfd` returns is true just of the listening sockets. -/
theorem listenfd_eq_zero_iff {p : Ports} {fd : Fd} : listenfd fd p.sockfds = 0 ↔ fd ∉ p.sockfds := by
  refine ⟨fun h hmem => ?_, listenfd_of_not_mem⟩
  rw [listenfd_of_mem hmem] at h
  exact (p.pos fd hmem).ne' h

/-- The steps, case by case. -/
inductive Moves (p : Ports) (s : State n) : Label n → State n → Prop
  | connect {port : Fd} : port ∈ p.sockfds →
      Moves p s (.connect port)
        (s.setListener port ⟨(s.listener port).queue ++ [Socket.fresh], true⟩)
  | early {port : Fd} {i : ℕ} {a : Arrival} :
      Moves p s (.early port i a) (s.setListener port
        { s.listener port with queue := (s.listener port).queue.modify i (Socket.arrive · a) })
  | arrive {fd : Fd} {a : Arrival} : fd ∈ s.clients →
      Moves p s (.arrive fd a) (s.setSocket fd ((s.socket fd).arrive a))
  | report {fds : List Fd} : s.main = .wait → fds.Nodup → (∀ fd ∈ fds, News p s fd) →
      Moves p s (.report fds) { s.reported fds with main := .events fds }
  | accept {clientfd fd : Fd} {rest : List Fd} {c : Socket} {queue : List Socket} :
      s.main = .events (fd :: rest) → fd ∈ p.sockfds → clientfd ∉ s.clients →
      clientfd ∉ p.sockfds → (s.listener fd).queue = c :: queue →
      Moves p s (.accept clientfd)
        { (s.setListener fd { s.listener fd with queue := queue }).setSocket clientfd c with
          clients := insert clientfd s.clients
          accepts := Function.update s.accepts clientfd (s.accepts clientfd + 1)
          main := .count clientfd rest }
  | batch_done : s.main = .events [] → Moves p s .main { s with main := .wait }
  | process {fd : Fd} {rest : List Fd} : s.main = .events (fd :: rest) → fd ∉ p.sockfds →
      s.proc .main = .idle →
      Moves p s .main { s.setProc .main (.recv fd [] 0) with main := .events rest }
  | add_job {fd : Fd} {rest : List Fd} : s.main = .events (fd :: rest) → fd ∉ p.sockfds →
      Moves p s .main { s with jobs := fd :: s.jobs, main := .events rest }
  | count {fd : Fd} {rest : List Fd} {nRun : Bool} : s.main = .count fd rest →
      Moves p s .main { s with nRun := nRun, curfds := s.curfds + 1, main := .add fd rest }
  | add {fd : Fd} {rest : List Fd} : s.main = .add fd rest →
      Moves p s .main
        { s with watched := if fd ∈ s.clients then insert fd s.watched else s.watched,
                 main := .events rest }
  | fail : s.main = .wait ∨ (∃ fd rest, s.main = .events (fd :: rest)) →
      Moves p s .fail { s with main := .returned }
  | take {w : Fin n} {fd : Fd} {jobs : List Fd} : s.proc (.worker w) = .idle →
      s.jobs = fd :: jobs →
      Moves p s (.take w) { s.setProc (.worker w) (.recv fd [] 0) with jobs := jobs }
  | recv_closed {t : Thread n} {fd : Fd} {data : List UInt8} {retCode : ℕ} :
      s.proc t = .recv fd data retCode → fd ∉ s.clients →
      Moves p s (.recv t) (s.setProc t (.poll fd data EBADF))
  | recv_some {t : Thread n} {fd : Fd} {data : List UInt8} {retCode : ℕ} :
      s.proc t = .recv fd data retCode →
      data.length + (s.socket fd).received.length < maxBuffer →
      Moves p s (.recv t) ((s.setSocket fd { s.socket fd with received := [] }).setProc t
        (.recv fd (data ++ (s.socket fd).received) retCode))
  | recv_full {t : Thread n} {fd : Fd} {data bytes : List UInt8} {retCode : ℕ} :
      s.proc t = .recv fd data retCode → fd ∈ s.clients →
      maxBuffer ≤ data.length + (s.socket fd).received.length → maxBuffer ≤ bytes.length →
      Moves p s (.recv t) ((s.setSocket fd { s.socket fd with
          received := (s.socket fd).received.drop (maxBuffer - data.length) }).setProc t
        (.received fd bytes retCode))
  | recv_error {t : Thread n} {fd : Fd} {data : List UInt8} {retCode : ℕ} :
      s.proc t = .recv fd data retCode → (s.socket fd).received = [] →
      Moves p s (.recv t) ((s.setSocket fd { s.socket fd with error := false }).setProc t
        (.poll fd data ECONNRESET))
  | recv_eof {t : Thread n} {fd : Fd} {data : List UInt8} {retCode : ℕ} :
      s.proc t = .recv fd data retCode → (s.socket fd).received = [] →
      Moves p s (.recv t) (s.setProc t (.received fd data ENOTCONN))
  | recv_again {t : Thread n} {fd : Fd} {data : List UInt8} {retCode : ℕ} :
      s.proc t = .recv fd data retCode → (s.socket fd).received = [] →
      Moves p s (.recv t) (s.setProc t (.poll fd data retCode))
  | poll_hup {t : Thread n} {fd : Fd} {data : List UInt8} {retCode : ℕ} :
      s.proc t = .poll fd data retCode → fd ∈ s.clients →
      Moves p s (.poll t .hup) (s.setProc t (.received fd data ENOTCONN))
  | poll_again {t : Thread n} {fd : Fd} {data : List UInt8} {retCode retCode' : ℕ}
      {result : PollResult} : s.proc t = .poll fd data retCode → result ≠ .hup →
      Moves p s (.poll t result) (s.setProc t (.recv fd data retCode'))
  | poll_timeout {t : Thread n} {fd : Fd} {data : List UInt8} {retCode : ℕ} :
      s.proc t = .poll fd data retCode → (s.socket fd).received = [] →
      Moves p s (.poll t .timeout) (s.setProc t (.received fd data ETIMEDOUT))
  | reply {t : Thread n} {fd : Fd} {data behind buffer : List UInt8} {retCode : ℕ} :
      s.proc t = .received fd data retCode → data ≠ [] →
      Moves p s (.done t behind) (s.setProc t (.send fd buffer))
  | leave {t : Thread n} {fd : Fd} {behind : List UInt8} : s.proc t = .received fd [] ENOTCONN →
      Moves p s (.done t behind) { s.setProc t (.close fd) with curfds := s.curfds - 1 }
  | nothing {t : Thread n} {fd : Fd} {data behind : List UInt8} {retCode : ℕ} :
      s.proc t = .received fd data retCode → ¬ (data = [] ∧ retCode = ENOTCONN) →
      Moves p s (.done t behind) (s.setProc t .idle)
  | send {t : Thread n} {fd : Fd} {buffer : List UInt8} {count : ℕ} (sent : List UInt8) :
      s.proc t = .send fd buffer →
      Moves p s (.send t count)
        ((s.setSocket fd { s.socket fd with sent := sent }).setProc t .idle)
  | close {t : Thread n} {fd : Fd} : s.proc t = .close fd →
      Moves p s (.close t) { s.setProc t .idle with
        clients := s.clients.erase fd
        watched := s.watched.erase fd
        closes := Function.update s.closes fd (s.closes fd + 1) }

section Inversion

variable {p : Ports} {s s' : State n} {t : Thread n}

theorem moves_of_epollWait {fds : List Fd} (h : epollWait p s fds = some s') :
    Moves p s (.report fds) s' := by
  unfold epollWait at h
  split at h
  · rename_i hall
    obtain ⟨hmain, -, -, -, hnodup, hnews⟩ := hall
    cases h
    exact .report hmain hnodup hnews
  · cases h

theorem moves_of_acceptStep {clientfd : Fd} (h : acceptStep p s clientfd = some s') :
    Moves p s (.accept clientfd) s' := by
  unfold acceptStep at h
  split at h
  case h_1 fd rest hmain =>
    dsimp only at h
    split at h
    · rename_i hall
      obtain ⟨hport, -, -, hclient, hother⟩ := hall
      have hmem : fd ∈ p.sockfds := not_not.mp fun hno => hport (listenfd_of_not_mem hno)
      rw [listenfd_of_mem hmem] at h
      split at h
      case h_1 c queue hqueue =>
        cases h
        exact .accept hmain hmem hclient hother hqueue
      case h_2 => cases h
    · cases h
  case h_2 => cases h

theorem moves_of_mainStep (h : mainStep p s = some s') : Moves p s .main s' := by
  unfold mainStep at h
  split at h
  case h_1 hmain =>
    split at h
    · cases h
      exact .batch_done hmain
    · cases h
  case h_2 fd rest hmain =>
    split at h
    · rename_i hclient
      have hmem : fd ∉ p.sockfds := listenfd_eq_zero_iff.mp hclient.1
      split at h
      · cases h
        exact .process hmain hmem hclient.2
      · cases h
        exact .add_job hmain hmem
    · cases h
  case h_3 hmain =>
    cases h
    exact .count hmain
  case h_4 hmain =>
    cases h
    exact .add hmain
  case h_5 => cases h
  case h_6 => cases h

theorem moves_of_failStep (h : failStep p s = some s') : Moves p s .fail s' := by
  unfold failStep at h
  split at h
  case h_1 hmain =>
    cases h
    exact .fail (Or.inl hmain)
  case h_2 fd rest hmain =>
    split at h
    · cases h
      exact .fail (Or.inr ⟨fd, rest, hmain⟩)
    · cases h
  case h_3 => cases h

theorem moves_of_takeStep {w : Fin n} (h : takeStep s w = some s') : Moves p s (.take w) s' := by
  unfold takeStep at h
  split at h
  case h_1 fd jobs hw hjobs =>
    cases h
    exact .take hw hjobs
  case h_2 => cases h

theorem moves_of_recvStep (h : recvStep s t = some s') : Moves p s (.recv t) s' := by
  unfold recvStep at h
  split at h
  case h_1 fd data retCode ht =>
    dsimp only at h
    split at h
    · rename_i hclosed
      cases h
      exact .recv_closed ht hclosed
    rename_i hopen
    split at h
    · by_cases hroom : data.length + (s.socket fd).received.length < maxBuffer
      · -- `recv` has taken all there is
        rw [List.take_of_length_le (by omega), List.drop_of_length_le (by omega),
          if_pos (by rw [List.length_append]; exact hroom)] at h
        cases h
        exact .recv_some ht hroom
      · have hlong : maxBuffer ≤
            (data ++ (s.socket fd).received.take (maxBuffer - data.length)).length := by
          rw [List.length_append, List.length_take]
          omega
        rw [if_neg (not_lt.mpr hlong)] at h
        cases h
        exact .recv_full ht (not_not.mp hopen) (not_lt.mp hroom) hlong
    rename_i hnil
    have hnil : (s.socket fd).received = [] := not_not.mp hnil
    split at h
    · cases h
      exact .recv_error ht hnil
    split at h
    · cases h
      exact .recv_eof ht hnil
    · cases h
      exact .recv_again ht hnil
  case h_2 => cases h

theorem moves_of_pollStep {result : PollResult} (h : pollStep s t result = some s') :
    Moves p s (.poll t result) s' := by
  unfold pollStep at h
  split at h
  case h_1 fd data retCode ht =>
    split at h
    · rename_i hpossible
      cases result with
      | hup =>
        cases h
        exact .poll_hup ht hpossible.1
      | ready =>
        cases h
        exact .poll_again ht nofun
      | timeout =>
        cases h
        exact .poll_timeout ht (not_not.mp fun hne => hpossible.2.2 (Or.inl hne))
      | fail errno =>
        dsimp only at h
        split at h
        · cases h
          exact .poll_again ht nofun
        · cases h
          exact .poll_again ht nofun
    · cases h
  case h_2 => cases h

theorem moves_of_doneStep {behind : List UInt8} (h : doneStep s t behind = some s') :
    Moves p s (.done t behind) s' := by
  unfold doneStep at h
  split at h
  case h_1 fd data retCode ht =>
    split at h
    · rename_i hlength
      have hne : data ≠ [] := List.length_pos_iff.mp hlength
      split at h
      · cases h
        exact .reply ht hne
      · cases h
        exact .nothing ht fun hboth => hne hboth.1
    rename_i hlength
    have hnil : data = [] := List.length_eq_zero_iff.mp (Nat.eq_zero_of_not_pos hlength)
    split at h
    · rename_i hret
      rw [hnil, hret] at ht
      cases h
      exact .leave ht
    · rename_i hret
      cases h
      exact .nothing ht fun hboth => hret hboth.2
  case h_2 => cases h

theorem moves_of_sendStep {count : ℕ} (h : sendStep s t count = some s') :
    Moves p s (.send t count) s' := by
  unfold sendStep at h
  split at h
  case h_1 fd buffer ht =>
    split at h
    · cases h
      exact .send _ ht
    · cases h
      have hsame : s.setSocket fd { s.socket fd with sent := (s.socket fd).sent } = s := by
        rw [State.setSocket, Function.update_eq_self]
      have hmoves : Moves p s (.send t count) _ := .send (s.socket fd).sent ht
      rwa [hsame] at hmoves
  case h_2 => cases h

theorem moves_of_closeStep (h : closeStep s t = some s') : Moves p s (.close t) s' := by
  unfold closeStep at h
  split at h
  case h_1 ht =>
    cases h
    exact .close ht
  case h_2 => cases h

/-- **What a step does.** -/
theorem moves_of_step {l : Label n} (h : step p s l = some s') :
    s.main ≠ .returned ∧ Moves p s l s' := by
  unfold step at h
  split at h
  · cases h
  refine ⟨‹_›, ?_⟩
  cases l with
  | connect port =>
    dsimp only at h
    split at h
    · cases h
      exact .connect ‹_›
    · cases h
  | early port i a =>
    cases h
    exact .early
  | arrive fd a =>
    dsimp only at h
    split at h
    · cases h
      exact .arrive ‹_›
    · cases h
  | report fds => exact moves_of_epollWait h
  | accept clientfd => exact moves_of_acceptStep h
  | main => exact moves_of_mainStep h
  | fail => exact moves_of_failStep h
  | take w => exact moves_of_takeStep h
  | recv t => exact moves_of_recvStep h
  | poll t result => exact moves_of_pollStep h
  | done t behind => exact moves_of_doneStep h
  | send t count => exact moves_of_sendStep h
  | close t => exact moves_of_closeStep h

end Inversion

/-- What holds at the start and survives each step that meets a condition holds in all runs
whose steps do. -/
theorem invariant {p : Ports} {C : State n → Label n → State n → Prop} {P : State n → Prop}
    (hstart : P (start n))
    (hstep : ∀ s l s', s.main ≠ .returned → P s → Moves p s l s' → C s l s' → P s')
    {s : State n} (h : ((server n p).restrict C).Reachable s) : P s := by
  refine TransitionSystem.Reachable.invariant (P := P) ?_ ?_ h
  · rintro s rfl
    exact hstart
  · rintro s l s' hs ⟨hmoves, hc⟩
    obtain ⟨hmain, hmoves⟩ := moves_of_step hmoves
    exact hstep s l s' hmain hs hmoves hc

/-- A run given by its labels. -/
theorem reachable_of_labels {p : Ports} {s : State n} (labels : List (Label n))
    (h : labels.foldlM (step p) (start n) = some s) : (server n p).Reachable s := by
  have hstart : (server n p).Reachable (start n) := .init rfl
  exact hstart.follow (fun _ _ _ hs => hs) h

end MultiPort
end UnixNetwork
