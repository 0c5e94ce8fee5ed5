import UnixNetwork.MultiPort.Server

/-!
# What nobody comes for

An edge-triggered descriptor is reported once for all that has arrived there, and `main`
answers a report of a listening socket by one `accept`, and one of a client by one
`nRecv`, which reads 128 bytes at most.  What is in a queue is read all the same if
somebody comes for it: a connection if there is a report for it (`Inv.waiting`), bytes if
their arrival is still to be reported, or an event, a job or a thread in `nRecv` is on
its way (`Coming`).

* `nothing_stranded`: no queue has anything in it when the server is at rest, in a run in
  which no two connections share a report, and no `nRecv` leaves bytes behind that nobody
  else comes for.
* `shared_edges_strand`: a run in which both happen.
-/

namespace UnixNetwork
namespace MultiPort

open Multiplex

variable {n : ℕ} {p : Ports}

/-- The events `main` has not come to. -/
def MainPc.rest : MainPc → List Fd
  | .events rest | .count _ rest | .add _ rest => rest
  | .wait | .returned => []

/-- The client that is not in the interest list yet. -/
def MainPc.adding : MainPc → Option Fd
  | .count fd _ | .add fd _ => some fd
  | _ => none

/-- The descriptor a thread will still read from, or close. -/
def Proc.attends : Proc → Option Fd
  | .recv fd _ _ | .poll fd _ _ | .close fd => some fd
  | .received fd data retCode => if data = [] ∧ retCode = ENOTCONN then some fd else none
  | .send _ _ | .idle => none

/-- Somebody comes for what is in a receive queue. -/
def Coming (s : State n) (fd : Fd) : Prop :=
  (s.socket fd).news = true ∨ fd ∈ s.main.rest ∨ fd ∈ s.jobs ∨ ∃ t, (s.proc t).attends = some fd

/-- Somebody other than this thread does. -/
def OtherComing (s : State n) (t : Thread n) (fd : Fd) : Prop :=
  (s.socket fd).news = true ∨ fd ∈ s.main.rest ∨ fd ∈ s.jobs ∨
    ∃ u, u ≠ t ∧ (s.proc u).attends = some fd

/-- The thread whose `nRecv` ends here, after it has read something, with bytes left in the
receive queue of this client. -/
def leavesBehind (s : State n) : Label n → Option (Thread n × Fd)
  | .recv t =>
    match s.proc t with
    | .recv fd data _ =>
      if fd ∈ s.clients ∧ maxBuffer - data.length < (s.socket fd).received.length then some (t, fd)
      else none
    | _ => none
  | .poll t .hup =>
    match s.proc t with
    | .poll fd data _ => if data ≠ [] ∧ (s.socket fd).received ≠ [] then some (t, fd) else none
    | _ => none
  | _ => none

/-- No connection arrives at a listening socket that is still to be reported for another
one, and no `nRecv` leaves bytes behind that nobody else comes for. -/
def Unshared (s : State n) (l : Label n) (_ : State n) : Prop :=
  (∀ port, l = .connect port → (s.listener port).news = false) ∧
    ∀ t fd, leavesBehind s l = some (t, fd) → OtherComing s t fd

/-- No event is waiting to be reported or handled, and no job is queued or running. -/
structure AtRest (p : Ports) (s : State n) : Prop where
  main : s.main = .wait ∨ s.main = .events []
  ports : ∀ port ∈ p.sockfds, (s.listener port).news = false
  watched : ∀ fd ∈ s.watched, (s.socket fd).news = false
  jobs : s.jobs = []
  proc : ∀ t, s.proc t = .idle

/-! ## Descriptors -/

/-- The clients are in the interest list, and are not listening sockets. -/
structure Kept (p : Ports) (s : State n) : Prop where
  apart : ∀ fd ∈ s.clients, fd ∉ p.sockfds
  watched : ∀ fd ∈ s.watched, fd ∈ s.clients
  clients : ∀ fd ∈ s.clients, fd ∈ s.watched ∨ s.main.adding = some fd ∨ s.main = .returned

theorem kept_start (n : ℕ) (p : Ports) : Kept p (start n) := ⟨nofun, nofun, nofun⟩

/-- `main` moves while no descriptor is being added. -/
theorem Kept.moved {s s' : State n} (h : Kept p s) (hclients : s'.clients = s.clients)
    (hwatched : s'.watched = s.watched) (hmain : s.main.adding = s'.main.adding)
    (hreturned : s.main = .returned → s'.main = .returned) : Kept p s' where
  apart := by
    rw [hclients]
    exact h.apart
  watched := by
    rw [hclients, hwatched]
    exact h.watched
  clients := by
    rw [hclients, hwatched, ← hmain]
    exact fun fd hfd => (h.clients fd hfd).imp_right (Or.imp_right hreturned)

theorem kept_step {s s' : State n} {l : Label n} (h : Kept p s) (hm : Moves p s l s') :
    Kept p s' := by
  cases hm with
  | connect _ | early | arrive _ | take _ _ | recv_closed _ _ | recv_some _ _ | recv_full _ _ _ _
  | recv_error _ _ | recv_eof _ _ | recv_again _ _ | poll_hup _ _ | poll_again _ _ | poll_timeout _ _
  | reply _ _ | leave _ | nothing _ _ | send _ _ => exact h.moved rfl rfl rfl id
  | report hmain _ _ | batch_done hmain | process hmain _ _ | add_job hmain _ | count hmain =>
    refine h.moved rfl rfl (by rw [hmain]; rfl) fun hreturned => ?_
    rw [hmain] at hreturned
    cases hreturned
  | fail _ => exact ⟨h.apart, h.watched, fun fd _ => Or.inr (Or.inr rfl)⟩
  | @accept clientfd fd rest c queue hmain _ _ hother _ =>
    refine ⟨?_, ?_, ?_⟩
    · intro x hx
      rcases Finset.mem_insert.mp hx with rfl | hx
      · exact hother
      · exact h.apart x hx
    · exact fun x hx => Finset.mem_insert_of_mem (h.watched x hx)
    · intro x hx
      rcases Finset.mem_insert.mp hx with rfl | hx
      · exact Or.inr (Or.inl rfl)
      · refine Or.inl ((h.clients x hx).resolve_right ?_)
        rw [hmain]
        rintro (hadding | hreturned)
        · cases hadding
        · cases hreturned
  | @add fd rest hmain =>
    refine ⟨h.apart, ?_, ?_⟩
    · intro x hx
      dsimp only at hx
      split at hx
      · rename_i hfd
        rcases Finset.mem_insert.mp hx with rfl | hx
        · exact hfd
        · exact h.watched x hx
      · exact h.watched x hx
    · intro x hx
      dsimp only
      rcases h.clients x hx with hw | hadding | hreturned
      · split
        · exact Or.inl (Finset.mem_insert_of_mem hw)
        · exact Or.inl hw
      · rw [hmain] at hadding
        obtain rfl : fd = x := Option.some.inj hadding
        rw [if_pos hx]
        exact Or.inl (Finset.mem_insert_self ..)
      · rw [hmain] at hreturned
        cases hreturned
  | @close t fd _ =>
    refine ⟨?_, ?_, ?_⟩
    · exact fun x hx => h.apart x (Finset.mem_of_mem_erase hx)
    · intro x hx
      obtain ⟨hne, hx⟩ := Finset.mem_erase.mp hx
      exact Finset.mem_erase.mpr ⟨hne, h.watched x hx⟩
    · intro x hx
      obtain ⟨hne, hx⟩ := Finset.mem_erase.mp hx
      exact (h.clients x hx).imp_left fun hw => Finset.mem_erase.mpr ⟨hne, hw⟩

/-! ## Connections -/

/-- How many reports of a listening socket `main` has not come to. -/
def reports (s : State n) (port : Fd) : ℕ :=
  (if (s.listener port).news then 1 else 0) + s.main.rest.count port

/-- How many connections nobody will accept. -/
def unreported (s : State n) (port : Fd) : ℤ := (s.listener port).queue.length - reports s port

/-- Neither the queue nor the reports change. -/
theorem unreported_moved {s s' : State n} {port : Fd}
    (hqueue : (s'.listener port).queue.length = (s.listener port).queue.length)
    (hnews : (s'.listener port).news = (s.listener port).news)
    (hrest : s'.main.rest.count port = s.main.rest.count port) :
    unreported s' port = unreported s port := by
  rw [unreported, unreported, reports, reports, hqueue, hnews, hrest]

theorem setListener_self (s : State n) (port : Fd) (c : Listener) :
    (s.setListener port c).listener port = c := Function.update_self ..

theorem setListener_of_ne (s : State n) {port port' : Fd} (c : Listener) (h : port' ≠ port) :
    (s.setListener port c).listener port' = s.listener port' := Function.update_of_ne h ..

theorem socket_setSocket (s : State n) (fd : Fd) (c : Socket) : (s.setSocket fd c).socket fd = c :=
  Function.update_self ..

theorem socket_setSocket_of_ne (s : State n) {fd fd' : Fd} (c : Socket) (h : fd' ≠ fd) :
    (s.setSocket fd c).socket fd' = s.socket fd' := Function.update_of_ne h ..

theorem unreported_setListener (s : State n) {port port' : Fd} (c : Listener) (h : port' ≠ port) :
    unreported (s.setListener port c) port' = unreported s port' := by
  refine unreported_moved ?_ ?_ rfl
  · rw [setListener_of_ne s c h]
  · rw [setListener_of_ne s c h]

/-- A connection at a listening socket that is to be reported already is one too many. -/
theorem unreported_connect (s : State n) (port : Fd) :
    unreported (s.setListener port ⟨(s.listener port).queue ++ [Socket.fresh], true⟩) port =
      unreported s port + (if (s.listener port).news then 1 else 0) := by
  rw [unreported, unreported, reports, reports, setListener_self]
  show ((((s.listener port).queue ++ [Socket.fresh]).length : ℕ) : ℤ) -
    ((1 + s.main.rest.count port : ℕ) : ℤ) = _
  rw [List.length_append, List.length_singleton]
  split <;> omega

/-- A report in which a listening socket is, or is not. -/
theorem unreported_report {s : State n} {fds : List Fd} (h : Kept p s) (hmain : s.main = .wait)
    (hnodup : fds.Nodup) (hnews : ∀ fd ∈ fds, News p s fd) {port : Fd} (hport : port ∈ p.sockfds) :
    unreported { s.reported fds with main := .events fds } port = unreported s port := by
  have hcount : fds.count port = if port ∈ fds then 1 else 0 := hnodup.count
  rw [unreported, unreported, reports, reports, hmain]
  show ((s.listener port).queue.length : ℤ) -
    (((if ((s.listener port).news && decide (port ∉ fds)) = true then 1 else 0) +
      fds.count port : ℕ) : ℤ) = _
  rw [hcount]
  by_cases hmem : port ∈ fds
  · have hnew : (s.listener port).news = true := by
      rcases hnews port hmem with ⟨-, hnew⟩ | ⟨hwatched, -⟩
      · exact hnew
      · exact absurd hport (h.apart port (h.watched port hwatched))
    simp [hmem, hnew, MainPc.rest]
  · simp [hmem, MainPc.rest]

/-- **Reports and connections** go together, unless two connections share a report. -/
theorem unreported_step {s s' : State n} {l : Label n} (h : Kept p s) (hm : Moves p s l s')
    (hfail : l ≠ .fail) {port : Fd} (hport : port ∈ p.sockfds)
    (hnew : l = .connect port → (s.listener port).news = false) :
    unreported s' port = unreported s port := by
  cases hm with
  | @connect port' _ =>
    by_cases heq : port = port'
    · subst heq
      rw [unreported_connect, hnew rfl, if_neg Bool.false_ne_true]
      omega
    · exact unreported_setListener s _ heq
  | @early port' i a =>
    by_cases heq : port = port'
    · subst heq
      refine unreported_moved ?_ ?_ rfl
      · rw [setListener_self, List.length_modify]
      · rw [setListener_self]
    · exact unreported_setListener s _ heq
  | report hmain hnodup hnews => exact unreported_report h hmain hnodup hnews hport
  | @accept clientfd fd rest c queue hmain _ _ _ hqueue =>
    by_cases heq : port = fd
    · subst heq
      rw [unreported, unreported, reports, reports, hmain, hqueue]
      show (((s.setListener port { s.listener port with queue := queue }).listener
        port).queue.length : ℤ) - (((if ((s.setListener port
          { s.listener port with queue := queue }).listener port).news = true then 1 else 0) +
          rest.count port : ℕ) : ℤ) = _
      rw [setListener_self, MainPc.rest, List.count_cons_self, List.length_cons]
      dsimp only
      omega
    · refine unreported_moved ?_ ?_ ?_
      · exact congrArg (fun c : Listener => c.queue.length) (setListener_of_ne s _ heq)
      · exact congrArg Listener.news (setListener_of_ne s _ heq)
      · rw [hmain]
        exact (List.count_cons_of_ne (Ne.symm heq)).symm
  | process hmain hfd _ | add_job hmain hfd =>
    refine unreported_moved rfl rfl ?_
    rw [hmain]
    refine (List.count_cons_of_ne ?_).symm
    rintro rfl
    exact hfd hport
  | batch_done hmain | count hmain | add hmain =>
    refine unreported_moved rfl rfl ?_
    rw [hmain]
    rfl
  | fail _ => exact absurd rfl hfail
  | arrive _ | take _ _ | recv_closed _ _ | recv_some _ _ | recv_full _ _ _ _ | recv_error _ _
  | recv_eof _ _ | recv_again _ _ | poll_hup _ _ | poll_again _ _ | poll_timeout _ _ | reply _ _
  | leave _ | nothing _ _ | send _ _ | close _ => exact unreported_moved rfl rfl rfl

/-! ## Bytes -/

/-- Bytes that arrived before `accept` are news. -/
def Early (s : State n) : Prop :=
  ∀ port, ∀ c ∈ (s.listener port).queue, c.received ≠ [] → c.news = true

theorem mem_modify {α : Type*} {f : α → α} {i : ℕ} {l : List α} {x : α} (h : x ∈ l.modify i f) :
    x ∈ l ∨ ∃ y, x = f y := by
  obtain ⟨j, hj, rfl⟩ := List.mem_iff_getElem.mp h
  rw [List.getElem_modify]
  split
  · exact Or.inr ⟨_, rfl⟩
  · exact Or.inl (List.getElem_mem _)

/-- One queue changes. -/
theorem Early.set {s s' : State n} (h : Early s) {port : Fd} {c : Listener}
    (hlistener : s'.listener = Function.update s.listener port c)
    (hc : ∀ x ∈ c.queue, x.received ≠ [] → x.news = true) : Early s' := by
  intro port'
  rw [hlistener]
  by_cases hport : port' = port
  · rw [hport, Function.update_self]
    exact hc
  · rw [Function.update_of_ne hport]
    exact h port'

theorem early_step {s s' : State n} {l : Label n} (h : Early s) (hm : Moves p s l s') :
    Early s' := by
  cases hm with
  | @connect port _ =>
    refine h.set rfl fun x hx hne => ?_
    rcases List.mem_append.mp hx with hx | hx
    · exact h port x hx hne
    · rw [List.mem_singleton.mp hx] at hne
      exact absurd rfl hne
  | @early port i a =>
    refine h.set rfl fun x hx hne => ?_
    rcases mem_modify hx with hx | ⟨y, rfl⟩
    · exact h port x hx hne
    · exact Socket.arrive_news y a
  | @accept clientfd fd rest c queue _ _ _ _ hqueue =>
    refine h.set rfl fun x hx hne => ?_
    refine h fd x ?_ hne
    rw [hqueue]
    exact List.mem_cons_of_mem c hx
  | arrive _ | report _ _ _ | batch_done _ | process _ _ _ | add_job _ _ | count _ | add _ | fail _
  | take _ _ | recv_closed _ _ | recv_some _ _ | recv_full _ _ _ _ | recv_error _ _ | recv_eof _ _
  | recv_again _ _ | poll_hup _ _ | poll_again _ _ | poll_timeout _ _ | reply _ _ | leave _
  | nothing _ _ | send _ _ | close _ => exact h

section Coming

variable {s s' : State n} {fd : Fd}

/-- Who comes still comes. -/
theorem Coming.mono (h : Coming s fd)
    (hnews : (s.socket fd).news = true → (s'.socket fd).news = true)
    (hrest : fd ∈ s.main.rest → fd ∈ s'.main.rest) (hjobs : fd ∈ s.jobs → fd ∈ s'.jobs)
    (hproc : ∀ u, (s.proc u).attends = some fd → (s'.proc u).attends = some fd) :
    Coming s' fd := by
  rcases h with h | h | h | ⟨u, hu⟩
  · exact Or.inl (hnews h)
  · exact Or.inr (Or.inl (hrest h))
  · exact Or.inr (Or.inr (Or.inl (hjobs h)))
  · exact Or.inr (Or.inr (Or.inr ⟨u, hproc u hu⟩))

theorem attends_update {t : Thread n} {proc : Proc}
    (hproc : (s.proc t).attends = some fd → proc.attends = some fd) (u : Thread n)
    (hu : (s.proc u).attends = some fd) :
    (Function.update s.proc t proc u).attends = some fd := by
  by_cases hut : u = t
  · rw [hut] at hu
    rw [hut, Function.update_self]
    exact hproc hu
  · rw [Function.update_of_ne hut]
    exact hu

/-- A batch is reported: what is news is in it, or still is. -/
theorem Coming.report (h : Coming s fd) {fds : List Fd} (hmain : s.main = .wait) :
    Coming { s.reported fds with main := .events fds } fd := by
  by_cases hmem : fd ∈ fds
  · exact Or.inr (Or.inl hmem)
  · refine h.mono (fun hnews => ?_) (fun hrest => ?_) id fun _ => id
    · show ((s.socket fd).news && decide (fd ∉ fds)) = true
      rw [hnews, decide_eq_true hmem]
      rfl
    · rw [hmain] at hrest
      cases hrest

/-- An event becomes a job. -/
theorem Coming.add_job (h : Coming s fd) {fd' : Fd} {rest : List Fd}
    (hmain : s.main = .events (fd' :: rest)) :
    Coming { s with jobs := fd' :: s.jobs, main := .events rest } fd := by
  rcases h with h | h | h | h
  · exact Or.inl h
  · rw [hmain] at h
    rcases List.mem_cons.mp h with rfl | h
    · exact Or.inr (Or.inr (Or.inl List.mem_cons_self))
    · exact Or.inr (Or.inl h)
  · exact Or.inr (Or.inr (Or.inl (List.mem_cons_of_mem _ h)))
  · exact Or.inr (Or.inr (Or.inr h))

/-- A thread that moves, and does not leave this client. -/
theorem Coming.moved (h : Coming s fd) {t : Thread n} {proc : Proc}
    (hproc : s'.proc = Function.update s.proc t proc)
    (hattends : (s.proc t).attends = some fd → proc.attends = some fd)
    (hnews : (s'.socket fd).news = (s.socket fd).news) (hmain : s'.main = s.main)
    (hjobs : s'.jobs = s.jobs) : Coming s' fd := by
  refine h.mono (hnews.trans ·) (hmain ▸ id) (hjobs ▸ id) fun u hu => ?_
  rw [hproc]
  exact attends_update hattends u hu

/-- A thread that moves, and was not with this client. -/
theorem Coming.passed (h : Coming s fd) {t : Thread n} {proc : Proc}
    (hproc : s'.proc = Function.update s.proc t proc) (hother : (s.proc t).attends ≠ some fd)
    (hnews : (s'.socket fd).news = (s.socket fd).news) (hmain : s'.main = s.main)
    (hjobs : s'.jobs = s.jobs) : Coming s' fd :=
  h.moved hproc (fun hattends => absurd hattends hother) hnews hmain hjobs

theorem attends_ne {t : Thread n} {fd' : Fd} (ht : (s.proc t).attends = some fd')
    (hne : fd ≠ fd') : (s.proc t).attends ≠ some fd := by
  rw [ht]
  exact fun h => hne (Option.some.inj h).symm

/-- A thread that was idle, and gets a client out of one of the lists. -/
theorem Coming.started (h : Coming s fd) {t : Thread n} {proc : Proc}
    (hproc : s'.proc = Function.update s.proc t proc) (hidle : s.proc t = .idle)
    (hnews : (s'.socket fd).news = (s.socket fd).news)
    (hrest : fd ∈ s.main.rest → proc.attends = some fd ∨ fd ∈ s'.main.rest)
    (hjobs : fd ∈ s.jobs → proc.attends = some fd ∨ fd ∈ s'.jobs) : Coming s' fd := by
  have hself : proc.attends = some fd → Coming s' fd := by
    refine fun hattends => Or.inr (Or.inr (Or.inr ⟨t, ?_⟩))
    rw [hproc, Function.update_self]
    exact hattends
  rcases h with h | h | h | ⟨u, hu⟩
  · exact Or.inl (hnews.trans h)
  · exact (hrest h).elim hself fun hmem => Or.inr (Or.inl hmem)
  · exact (hjobs h).elim hself fun hmem => Or.inr (Or.inr (Or.inl hmem))
  · refine Or.inr (Or.inr (Or.inr ⟨u, ?_⟩))
    rw [hproc]
    refine attends_update (fun hattends => ?_) u hu
    rw [hidle] at hattends
    cases hattends

/-- A thread that leaves a client for which somebody else comes. -/
theorem OtherComing.moved {t : Thread n} (h : OtherComing s t fd) {proc : Proc}
    (hproc : s'.proc = Function.update s.proc t proc)
    (hnews : (s'.socket fd).news = (s.socket fd).news) (hmain : s'.main = s.main)
    (hjobs : s'.jobs = s.jobs) : Coming s' fd := by
  rcases h with h | h | h | ⟨u, hut, hu⟩
  · exact Or.inl (hnews.trans h)
  · exact Or.inr (Or.inl (hmain ▸ h))
  · exact Or.inr (Or.inr (Or.inl (hjobs ▸ h)))
  · refine Or.inr (Or.inr (Or.inr ⟨u, ?_⟩))
    rw [hproc, Function.update_of_ne hut]
    exact hu

end Coming

section Sockets

variable {s s' : State n} {fd x : Fd} {c : Socket}

/-- One socket changes, but not whether it is news. -/
theorem news_of_update (hsocket : s'.socket = Function.update s.socket fd c)
    (hc : c.news = (s.socket fd).news) (x : Fd) : (s'.socket x).news = (s.socket x).news := by
  rw [hsocket]
  by_cases hx : x = fd
  · rw [hx, Function.update_self]
    exact hc
  · rw [Function.update_of_ne hx]

theorem received_of_update (hsocket : s'.socket = Function.update s.socket fd c)
    (hc : x = fd → c.received = (s.socket fd).received) :
    (s'.socket x).received = (s.socket x).received := by
  rw [hsocket]
  by_cases hx : x = fd
  · rw [hx, Function.update_self]
    exact hc hx
  · rw [Function.update_of_ne hx]

end Sockets

theorem attends_gone (fd : Fd) : (Proc.received fd [] ENOTCONN).attends = some fd := by
  rw [Proc.attends, if_pos ⟨rfl, rfl⟩]

theorem attends_received {fd : Fd} {data : List UInt8} {retCode : ℕ}
    (h : ¬ (data = [] ∧ retCode = ENOTCONN)) : (Proc.received fd data retCode).attends = none :=
  if_neg h

section LeavesBehind

variable {s : State n} {t : Thread n} {fd : Fd} {data : List UInt8} {retCode : ℕ}

/-- The buffer is full, and something is left. -/
theorem leavesBehind_recv (ht : s.proc t = .recv fd data retCode) (hfd : fd ∈ s.clients)
    (hrest : (s.socket fd).received.drop (maxBuffer - data.length) ≠ []) :
    leavesBehind s (.recv t) = some (t, fd) := by
  have hlong := List.length_pos_iff.mpr hrest
  rw [List.length_drop] at hlong
  rw [leavesBehind, ht]
  exact if_pos ⟨hfd, by omega⟩

theorem leavesBehind_poll (ht : s.proc t = .poll fd data retCode) (hdata : data ≠ [])
    (hrest : (s.socket fd).received ≠ []) : leavesBehind s (.poll t .hup) = some (t, fd) := by
  rw [leavesBehind, ht]
  exact if_pos ⟨hdata, hrest⟩

end LeavesBehind

/-- Somebody comes for whatever is in the receive queue of a client. -/
def Served (s : State n) : Prop :=
  ∀ fd ∈ s.clients, (s.socket fd).received ≠ [] → Coming s fd

section Steps

variable {s : State n} {t : Thread n} {fd : Fd} {data : List UInt8} {retCode : ℕ}

/-- What arrives is news. -/
theorem Served.arrive (h : Served s) (fd : Fd) (a : Arrival) :
    Served (s.setSocket fd ((s.socket fd).arrive a)) := by
  intro x hx hne
  by_cases hxfd : x = fd
  · refine Or.inl ?_
    rw [hxfd, socket_setSocket]
    exact Socket.arrive_news ..
  · rw [socket_setSocket_of_ne s _ hxfd] at hne
    refine (h x hx hne).mono (fun hnews => ?_) id id fun _ => id
    rw [socket_setSocket_of_ne s _ hxfd]
    exact hnews

/-- What a new client has sent early is news, and its listening socket is no client. -/
theorem Served.accept (h : Served s) (hkept : Kept p s) (hearly : Early s) {clientfd : Fd}
    {rest : List Fd} {c : Socket} {queue : List Socket} (hmain : s.main = .events (fd :: rest))
    (hport : fd ∈ p.sockfds) (hqueue : (s.listener fd).queue = c :: queue) :
    Served { (s.setListener fd { s.listener fd with queue := queue }).setSocket clientfd c with
      clients := insert clientfd s.clients
      accepts := Function.update s.accepts clientfd (s.accepts clientfd + 1)
      main := .count clientfd rest } := by
  intro x hx hne
  by_cases hxc : x = clientfd
  · subst hxc
    have hsocket : Function.update s.socket x c x = c := Function.update_self ..
    have hc : c ∈ (s.listener fd).queue := by
      rw [hqueue]
      exact List.mem_cons_self
    have hnews : c.news = true := hearly fd c hc fun hnil =>
      hne ((congrArg Socket.received hsocket).trans hnil)
    exact Or.inl ((congrArg Socket.news hsocket).trans hnews)
  · have hsocket : Function.update s.socket clientfd c x = s.socket x :=
      Function.update_of_ne hxc ..
    have hxs : x ∈ s.clients := (Finset.mem_insert.mp hx).resolve_left hxc
    have hxp : x ≠ fd := by
      rintro rfl
      exact hkept.apart x hxs hport
    refine (h x hxs fun hnil => hne ((congrArg Socket.received hsocket).trans hnil)).mono
      (congrArg Socket.news hsocket).trans (fun hrest => ?_) id fun _ => id
    rw [hmain] at hrest
    exact (List.mem_cons.mp hrest).resolve_left hxp

/-- A thread that takes all there is goes on with this client. -/
theorem Served.recv_some (h : Served s) (ht : s.proc t = .recv fd data retCode) :
    Served ((s.setSocket fd { s.socket fd with received := [] }).setProc t
      (.recv fd (data ++ (s.socket fd).received) retCode)) := by
  intro x hx hne
  have hxfd : x ≠ fd := by
    rintro rfl
    exact hne (congrArg Socket.received (socket_setSocket s x _))
  have hne : (s.socket x).received ≠ [] :=
    fun hnil => hne ((received_of_update rfl fun hx => absurd hx hxfd).trans hnil)
  exact (h x hx hne).moved rfl (by rw [ht]; exact id) (news_of_update rfl (by rfl) x) rfl rfl

/-- A thread whose buffer is full leaves this client, and what it leaves is for another. -/
theorem Served.recv_full (h : Served s) (ht : s.proc t = .recv fd data retCode) (bytes : List UInt8)
    (hother : (s.socket fd).received.drop (maxBuffer - data.length) ≠ [] → OtherComing s t fd) :
    Served ((s.setSocket fd { s.socket fd with
      received := (s.socket fd).received.drop (maxBuffer - data.length) }).setProc t
        (.received fd bytes retCode)) := by
  intro x hx hne
  by_cases hxfd : x = fd
  · subst hxfd
    have hrest : (s.socket x).received.drop (maxBuffer - data.length) ≠ [] :=
      fun hnil => hne ((congrArg Socket.received (socket_setSocket s x _)).trans hnil)
    exact (hother hrest).moved rfl (news_of_update rfl (by rfl) x) rfl rfl
  · have hne : (s.socket x).received ≠ [] :=
      fun hnil => hne ((received_of_update rfl fun hx => absurd hx hxfd).trans hnil)
    exact (h x hx hne).passed rfl (attends_ne (congrArg Proc.attends ht) hxfd)
      (news_of_update rfl (by rfl) x) rfl rfl

/-- A thread that is told of a hang-up closes the client, or leaves it if it has something to
reply to. -/
theorem Served.poll_hup (h : Served s) (ht : s.proc t = .poll fd data retCode)
    (hother : data ≠ [] → (s.socket fd).received ≠ [] → OtherComing s t fd) :
    Served (s.setProc t (.received fd data ENOTCONN)) := by
  intro x hx hne
  by_cases hdata : data = []
  · subst hdata
    exact (h x hx hne).moved rfl (by rw [ht, attends_gone]; exact id) rfl rfl rfl
  by_cases hxfd : x = fd
  · subst hxfd
    exact (hother hdata hne).moved rfl rfl rfl rfl
  · exact (h x hx hne).passed rfl (attends_ne (congrArg Proc.attends ht) hxfd) rfl rfl rfl

end Steps

/-- **Whoever comes goes on coming**, unless the last of them leaves bytes behind. -/
theorem served_step {s s' : State n} {l : Label n} (hkept : Kept p s) (hearly : Early s)
    (h : Served s) (hm : Moves p s l s') (hfail : l ≠ .fail)
    (hother : ∀ t fd, leavesBehind s l = some (t, fd) → OtherComing s t fd) : Served s' := by
  intro x hx hne
  cases hm with
  | connect _ | early => exact h x hx hne
  | @arrive fd a _ => exact h.arrive fd a x hx hne
  | report hmain _ _ => exact (h x hx hne).report hmain
  | accept hmain hport _ _ hqueue => exact h.accept hkept hearly hmain hport hqueue x hx hne
  | batch_done hmain | count hmain | add hmain =>
    refine (h x hx hne).mono id (fun hrest => ?_) id fun _ => id
    rw [hmain] at hrest
    exact hrest
  | @process fd rest hmain _ hidle =>
    refine (h x hx hne).started (t := .main) rfl hidle rfl (fun hrest => ?_) fun hjobs => Or.inr hjobs
    rw [hmain] at hrest
    exact (List.mem_cons.mp hrest).imp_left fun heq => congrArg some heq.symm
  | add_job hmain _ => exact (h x hx hne).add_job hmain
  | fail _ => exact absurd rfl hfail
  | @take w fd jobs hidle hjobs =>
    refine (h x hx hne).started rfl hidle rfl (fun hrest => Or.inr hrest) fun hjob => ?_
    rw [hjobs] at hjob
    exact (List.mem_cons.mp hjob).imp_left fun heq => congrArg some heq.symm
  | recv_closed ht _ | recv_again ht _ | poll_again ht _ =>
    exact (h x hx hne).moved rfl (by rw [ht]; exact id) rfl rfl rfl
  | leave ht =>
    exact (h x hx hne).moved rfl (by rw [ht, attends_gone]; exact id) rfl rfl rfl
  | @recv_eof t fd data retCode ht hnil | @poll_timeout t fd data retCode ht hnil =>
    have hxfd : x ≠ fd := by
      -- the thread has found the queue empty
      rintro rfl
      exact hne hnil
    exact (h x hx hne).passed rfl (attends_ne (congrArg Proc.attends ht) hxfd) rfl rfl rfl
  | reply ht hdata =>
    refine (h x hx hne).passed rfl ?_ rfl rfl rfl
    rw [ht, attends_received fun hboth => hdata hboth.1]
    exact nofun
  | nothing ht hdata =>
    refine (h x hx hne).passed rfl ?_ rfl rfl rfl
    rw [ht, attends_received hdata]
    exact nofun
  | recv_error ht _ =>
    have hne : (s.socket x).received ≠ [] := fun hnil =>
      hne ((received_of_update rfl fun _ => by rfl).trans hnil)
    exact (h x hx hne).moved rfl (by rw [ht]; exact id) (news_of_update rfl (by rfl) x) rfl rfl
  | send sent ht =>
    have hne : (s.socket x).received ≠ [] := fun hnil =>
      hne ((received_of_update rfl fun _ => by rfl).trans hnil)
    refine (h x hx hne).passed rfl ?_ (news_of_update rfl (by rfl) x) rfl rfl
    rw [ht]
    exact nofun
  | recv_some ht _ => exact h.recv_some ht x hx hne
  | @recv_full t fd data bytes retCode ht hfd _ _ =>
    exact h.recv_full ht bytes (fun hrest => hother t fd (leavesBehind_recv ht hfd hrest)) x hx hne
  | @poll_hup t fd data retCode ht _ =>
    exact h.poll_hup ht (fun hdata hrest => hother t fd (leavesBehind_poll ht hdata hrest)) x hx hne
  | @close t fd ht =>
    obtain ⟨hxfd, hxs⟩ := Finset.mem_erase.mp hx
    exact (h x hxs hne).passed rfl (attends_ne (congrArg Proc.attends ht) hxfd) rfl rfl rfl

/-! ## The server at rest -/

/-- Somebody comes for everything, as long as the process is there. -/
structure Inv (p : Ports) (s : State n) : Prop where
  kept : Kept p s
  early : Early s
  waiting : s.main ≠ .returned → ∀ port ∈ p.sockfds, unreported s port = 0
  served : s.main ≠ .returned → Served s

theorem inv_start (n : ℕ) (p : Ports) : Inv p (start n) := by
  refine ⟨kept_start n p, nofun, fun _ port _ => rfl, fun _ => nofun⟩

theorem inv_step {s s' : State n} {l : Label n} (hmain : s.main ≠ .returned) (h : Inv p s)
    (hm : Moves p s l s') (hunshared : Unshared s l s') : Inv p s' := by
  have hfail : s'.main ≠ .returned → l ≠ .fail := by
    rintro hmain' rfl
    cases hm
    exact hmain' rfl
  refine ⟨kept_step h.kept hm, early_step h.early hm, fun hmain' port hport => ?_, fun hmain' => ?_⟩
  · rw [unreported_step h.kept hm (hfail hmain') hport (hunshared.1 port)]
    exact h.waiting hmain port hport
  · exact served_step h.kept h.early (h.served hmain) hm (hfail hmain') hunshared.2

/-- **Nothing is stranded** in a run in which no two connections share a report, and no
`nRecv` leaves bytes behind that nobody else comes for. -/
theorem nothing_stranded {s : State n} (h : ((server n p).restrict Unshared).Reachable s)
    (hrest : AtRest p s) : (∀ port ∈ p.sockfds, (s.listener port).queue = []) ∧
      ∀ fd ∈ s.clients, (s.socket fd).received = [] := by
  have hinv : Inv p s := invariant (inv_start n p)
    (fun _ _ _ hmain hs hm hunshared => inv_step hmain hs hm hunshared) h
  obtain ⟨hmain, hevents, hadding⟩ :
      s.main ≠ .returned ∧ s.main.rest = [] ∧ s.main.adding = none := by
    rcases hrest.main with hmain | hmain <;> exact hmain ▸ ⟨nofun, rfl, rfl⟩
  constructor
  · intro port hport
    have hwaiting := hinv.waiting hmain port hport
    rw [unreported, reports, hrest.ports port hport, if_neg Bool.false_ne_true, hevents] at hwaiting
    have hlength : ((s.listener port).queue.length : ℤ) - ((0 + 0 : ℕ) : ℤ) = 0 := hwaiting
    exact List.length_eq_zero_iff.mp (by omega)
  · intro fd hfd
    by_contra hne
    rcases hinv.served hmain fd hfd hne with hnews | hmem | hjob | ⟨t, ht⟩
    · have hwatched : fd ∈ s.watched := by
        refine (hinv.kept.clients fd hfd).resolve_right ?_
        rintro (hadd | hreturned)
        · rw [hadding] at hadd
          cases hadd
        · exact hmain hreturned
      rw [hrest.watched fd hwatched] at hnews
      cases hnews
    · rw [hevents] at hmem
      cases hmem
    · rw [hrest.jobs] at hjob
      cases hjob
    · rw [hrest.proc t] at ht
      cases ht

/-- A connection arrives where another one is still to be reported. -/
def sharesReport (s : State n) : Label n → Bool
  | .connect port => (s.listener port).news
  | _ => false

/-- A step that shares no report, and leaves no bytes behind. -/
def unsharedStep (p : Ports) (s : State n) (l : Label n) : Option (State n) :=
  if sharesReport s l = false ∧ leavesBehind s l = none then step p s l else none

theorem restrict_of_unsharedStep (s : State n) (l : Label n) (s' : State n)
    (h : unsharedStep p s l = some s') : ((server n p).restrict Unshared).step s l s' := by
  unfold unsharedStep at h
  split at h
  · rename_i hboth
    refine ⟨h, ?_, fun t fd hleaves => ?_⟩
    · rintro port rfl
      exact hboth.1
    · rw [hboth.2] at hleaves
      cases hleaves
  · cases h

/-- A client connects, and sends something that is answered. -/
theorem nothing_stranded_reply : ∃ s : State 1, AtRest ports s ∧ 104 ∈ s.clients ∧
    (s.socket 104).sent = [97, 98] ∧ (∀ port ∈ ports.sockfds, (s.listener port).queue = []) ∧
      ∀ fd ∈ s.clients, (s.socket fd).received = [] := by
  have hrun : [Label.connect 4, .report [4], .accept 104, .main, .main, .main,
      .arrive 104 (.data [97, 98]), .report [104], .main, .main, .take 0, .recv (.worker 0),
      .recv (.worker 0), .poll (.worker 0) .timeout, .done (.worker 0) [],
      .send (.worker 0) 2].foldlM (unsharedStep ports) (start 1) = some _ := rfl
  have hstart : ((server 1 ports).restrict Unshared).Reachable (start 1) := .init rfl
  have hreach := hstart.follow restrict_of_unsharedStep hrun
  exact ⟨_, ⟨Or.inl rfl, by decide, by decide, rfl, by decide⟩, by decide, rfl,
    nothing_stranded hreach ⟨Or.inl rfl, by decide, by decide, rfl, by decide⟩⟩

set_option maxRecDepth 4000 in
/-- Two clients connect before the first is reported, and one of them sends 200 bytes at
once.  The other one is never accepted, and 72 bytes are never read. -/
theorem shared_edges_strand : ¬ ∀ n p (s : State n), (server n p).Reachable s → AtRest p s →
    (∀ port ∈ p.sockfds, (s.listener port).queue = []) ∧
      ∀ fd ∈ s.clients, (s.socket fd).received = [] := by
  intro h
  have hrun := h 1 ports _ (reachable_of_labels [.connect 4, .connect 4, .report [4], .accept 104,
    .main, .main, .main, .arrive 104 (.data (List.replicate 200 97)), .report [104], .main, .main,
    .take 0, .recv (.worker 0), .done (.worker 0) [0], .send (.worker 0) 128] rfl)
    ⟨Or.inl rfl, by decide, by decide, rfl, by decide⟩
  have hqueue := hrun.1 4 (by decide)
  cases hqueue

end MultiPort
end UnixNetwork
