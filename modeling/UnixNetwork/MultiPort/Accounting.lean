import UnixNetwork.MultiPort.Server
import UnixNetwork.Tables.Ledger

/-!
# `curfds` and the clients

Descriptors are opened by `accept`, counted by `curfds++`, counted off by `curfds--` and
closed by `close`: a `Ledger` (`ledger`), whose balance is kept by all steps but one.
`curfds--` is executed by whoever has read nothing and been told `ENOTCONN` (`Proc.gone`), and
nothing keeps two jobs for one descriptor from both coming there.

* `curfds_counts_clients`: all is well in a run in which `curfds--` is only executed for a
  descriptor that is open, counted, and not being closed by another thread.
* `curfds_right_iff`: the first `curfds--` for another one makes it wrong.
-/

namespace UnixNetwork
namespace MultiPort

open Multiplex

variable {n : ℕ} {p : Ports}

/-! ## The ledger -/

/-- The descriptor `accept` has returned and `curfds++` has not counted. -/
def MainPc.entering : MainPc → Option Fd
  | .count fd _ => some fd
  | _ => none

/-- The descriptor a thread is about to close. -/
def Proc.closing : Proc → Option Fd
  | .close fd => some fd
  | _ => none

/-- The descriptor for which `nRecv` has read nothing and returned `ENOTCONN`. -/
def Proc.gone : Proc → Option Fd
  | .received fd data retCode => if data = [] ∧ retCode = ENOTCONN then some fd else none
  | _ => none

/-- What `curfds` is to count. -/
def ledger (s : State n) : Ledger (Thread n) Fd where
  opened := s.clients
  entering := s.main.entering
  leaving := fun t => (s.proc t).closing
  count := s.curfds
  opens := s.accepts
  closes := s.closes

/-- The clients between `curfds++` and `curfds--`. -/
def counted (s : State n) : Finset Fd := (ledger s).settled

/-- `curfds--` is executed for a client that is counted. -/
def CountsOff (s : State n) (l : Label n) (_ : State n) : Prop :=
  ∀ t behind fd, l = .done t behind → (s.proc t).gone = some fd → fd ∈ counted s

theorem closing_update {s : State n} {t : Thread n} {proc : Proc} :
    (fun u => (Function.update s.proc t proc u).closing) =
      Function.update (fun u => (s.proc u).closing) t proc.closing :=
  funext fun u => Function.apply_update (fun _ => Proc.closing) s.proc t proc u

section Moved

variable {s s' : State n}

/-- A thread that moves, but not to `close` or from it. -/
theorem ledger_moved {t : Thread n} {proc : Proc} (hproc : s'.proc = Function.update s.proc t proc)
    (hclosing : proc.closing = (s.proc t).closing) (hclients : s'.clients = s.clients)
    (hmain : s'.main.entering = s.main.entering) (hcurfds : s'.curfds = s.curfds)
    (haccepts : s'.accepts = s.accepts) (hcloses : s'.closes = s.closes) :
    ledger s' = ledger s := by
  have hleaving : (fun u => (s'.proc u).closing) = fun u => (s.proc u).closing := by
    rw [hproc, closing_update, hclosing, Function.update_eq_self]
  rw [ledger, ledger, hleaving, hclients, hmain, hcurfds, haccepts, hcloses]

/-- `main` moves, but not over `accept` or `curfds++`. -/
theorem ledger_main (hproc : s'.proc = s.proc) (hclients : s'.clients = s.clients)
    (hmain : s'.main.entering = s.main.entering) (hcurfds : s'.curfds = s.curfds)
    (haccepts : s'.accepts = s.accepts) (hcloses : s'.closes = s.closes) :
    ledger s' = ledger s := by
  rw [ledger, ledger, hproc, hclients, hmain, hcurfds, haccepts, hcloses]

end Moved

theorem ledger_leave (s : State n) (t : Thread n) (fd : Fd) :
    ledger { s.setProc t (.close fd) with curfds := s.curfds - 1 } = (ledger s).leave t fd := by
  have hleaving : (fun u => (Function.update s.proc t (.close fd) u).closing) =
      Function.update (fun u => (s.proc u).closing) t (some fd) := closing_update
  rw [ledger, Ledger.leave]
  exact congrArg (Ledger.mk s.clients s.main.entering · (s.curfds - 1) s.accepts s.closes) hleaving

theorem ledger_close (s : State n) (t : Thread n) (fd : Fd) :
    ledger { s.setProc t .idle with
        clients := s.clients.erase fd
        watched := s.watched.erase fd
        closes := Function.update s.closes fd (s.closes fd + 1) } = (ledger s).close t fd := by
  have hleaving : (fun u => (Function.update s.proc t .idle u).closing) =
      Function.update (fun u => (s.proc u).closing) t none := closing_update
  rw [ledger, Ledger.close]
  exact congrArg (Ledger.mk (s.clients.erase fd) s.main.entering · s.curfds s.accepts
    (Function.update s.closes fd (s.closes fd + 1))) hleaving

/-- **The balance is kept**, if `curfds--` is for a client that is counted. -/
theorem balanced_step {s s' : State n} {l : Label n} (h : (ledger s).Balanced 1)
    (hm : Moves p s l s') (hcounts : CountsOff s l s') : (ledger s').Balanced 1 := by
  have hmoved : ∀ {t : Thread n} {proc : Proc} {u : State n},
      u.proc = Function.update s.proc t proc → proc.closing = (s.proc t).closing →
      u.clients = s.clients → u.main.entering = s.main.entering → u.curfds = s.curfds →
      u.accepts = s.accepts → u.closes = s.closes → (ledger u).Balanced 1 := by
    intro t proc u hproc hclosing hclients hmain hcurfds haccepts hcloses
    rw [ledger_moved hproc hclosing hclients hmain hcurfds haccepts hcloses]
    exact h
  have hquiet : ∀ {u : State n}, u.proc = s.proc → u.clients = s.clients →
      u.main.entering = s.main.entering → u.curfds = s.curfds → u.accepts = s.accepts →
      u.closes = s.closes → (ledger u).Balanced 1 := by
    intro u hproc hclients hmain hcurfds haccepts hcloses
    rw [ledger_main hproc hclients hmain hcurfds haccepts hcloses]
    exact h
  cases hm with
  | connect _ | early | arrive _ => exact hquiet rfl rfl rfl rfl rfl rfl
  | report hmain _ _ | batch_done hmain | add_job hmain _ | add hmain =>
    exact hquiet rfl rfl (by rw [hmain]; rfl) rfl rfl rfl
  | fail hmain =>
    rcases hmain with hmain | ⟨fd, rest, hmain⟩ <;>
      exact hquiet rfl rfl (by rw [hmain]; rfl) rfl rfl rfl
  | process hmain _ hidle =>
    exact hmoved (t := .main) rfl (by rw [hidle]; rfl) rfl (by rw [hmain]; rfl) rfl rfl rfl
  | accept hmain _ hclient _ _ =>
    have henter : (ledger s).entering = none := by
      rw [ledger, hmain]
      rfl
    exact h.opening hclient henter
  | @count fd _ _ hmain =>
    have henter : (ledger s).entering = some fd := by
      rw [ledger, hmain]
      rfl
    exact h.enter henter
  | take ht _ | recv_closed ht _ | recv_some ht _ | recv_full ht _ _ _ | recv_error ht _
  | recv_eof ht _ | recv_again ht _ | poll_hup ht _ | poll_again ht _ | poll_timeout ht _
  | reply ht _ | nothing ht _ | send _ ht =>
    exact hmoved rfl (by rw [ht]; rfl) rfl rfl rfl rfl rfl
  | @leave t fd behind ht =>
    have hleaving : (ledger s).leaving t = none := by
      show (s.proc t).closing = none
      rw [ht]
      rfl
    rw [ledger_leave]
    refine h.leave hleaving (hcounts t behind fd rfl ?_)
    rw [ht]
    rfl
  | @close t fd ht =>
    have hleaving : (ledger s).leaving t = some fd := by
      show (s.proc t).closing = some fd
      rw [ht]
      rfl
    rw [ledger_close]
    exact h.close hleaving

theorem balanced_start (n : ℕ) : (ledger (start n)).Balanced 1 where
  count := rfl
  entering := nofun
  leaving := nofun
  unique := nofun
  closes := fun _ => rfl

theorem balanced_of_reachable {s : State n} (h : ((server n p).restrict CountsOff).Reachable s) :
    (ledger s).Balanced 1 :=
  invariant (balanced_start n) (fun _ _ _ _ hs hm hcounts => balanced_step hs hm hcounts) h

/-! ## The number of clients -/

/-- Nobody is between `accept` and `curfds++`, or between `curfds--` and `close`. -/
def Settled (s : State n) : Prop := s.main.entering = none ∧ ∀ t, (s.proc t).closing = none

/-- **`curfds` counts the clients**, no descriptor is closed twice, and `epoll_wait` is never
asked for less than one event, in a run in which `curfds--` is for a client that is counted.
Between `accept` and `curfds++`, and between `curfds--` and `close`, a client is not in what
`curfds` counts. -/
theorem curfds_counts_clients {s : State n} (h : ((server n p).restrict CountsOff).Reachable s) :
    (s.curfds = 1 + (counted s).card ∧ (Settled s → s.curfds = 1 + s.clients.card)) ∧
      (∀ fd, s.closes fd ≤ s.accepts fd) ∧ 1 ≤ s.curfds := by
  have hbalanced := balanced_of_reachable h
  refine ⟨⟨hbalanced.count, ?_⟩, hbalanced.closes_le, hbalanced.base_le⟩
  rintro ⟨henter, hclosing⟩
  exact hbalanced.count_of_rest henter hclosing

/-- A step from a state in which whoever is about to execute `curfds--` has a client that is
counted. -/
def countsStep (p : Ports) (s : State n) (l : Label n) : Option (State n) :=
  if ∀ t, ∀ fd ∈ (s.proc t).gone, fd ∈ counted s then step p s l else none

theorem restrict_of_countsStep (s : State n) (l : Label n) (s' : State n)
    (h : countsStep p s l = some s') : ((server n p).restrict CountsOff).step s l s' := by
  unfold countsStep at h
  split at h
  · rename_i hall
    exact ⟨h, fun t _ fd _ hgone => hall t fd hgone⟩
  · cases h

/-- A client comes and goes. -/
theorem curfds_counts_clients_one : ∃ s : State 1, s.accepts 104 = 1 ∧ s.closes 104 = 1 ∧
    s.curfds = 1 ∧ (s.curfds = 1 + (counted s).card ∧
      (Settled s → s.curfds = 1 + s.clients.card)) ∧
      (∀ fd, s.closes fd ≤ s.accepts fd) ∧ 1 ≤ s.curfds := by
  have hrun : [Label.connect 4, .report [4], .accept 104, .main, .main, .main, .arrive 104 .fin,
      .report [104], .main, .main, .take 0, .recv (.worker 0), .done (.worker 0) [],
      .close (.worker 0)].foldlM (countsStep ports) (start 1) = some _ := rfl
  have hstart : ((server 1 ports).restrict CountsOff).Reachable (start 1) := .init rfl
  have hreach := hstart.follow restrict_of_countsStep hrun
  exact ⟨_, rfl, rfl, rfl, curfds_counts_clients hreach⟩

theorem gone_eq_some {proc : Proc} {fd : Fd} (h : proc.gone = some fd) :
    proc = .received fd [] ENOTCONN := by
  unfold Proc.gone at h
  split at h
  · split at h
    · rename_i hboth
      cases h
      rw [hboth.1, hboth.2]
    · cases h
  · cases h

/-- As long as `curfds` is right, **it stays right over `curfds--` just if** the client is
counted. -/
theorem curfds_right_iff {s s' : State n} {t : Thread n} {behind : List UInt8} {fd : Fd}
    (h : s.curfds = 1 + (counted s).card) (hgone : (s.proc t).gone = some fd)
    (hstep : step p s (.done t behind) = some s') :
    s'.curfds = 1 + (counted s').card ↔ fd ∈ counted s := by
  have hproc : s.proc t = .received fd [] ENOTCONN := gone_eq_some hgone
  have hleaving : (ledger s).leaving t = none := by
    show (s.proc t).closing = none
    rw [hproc]
    rfl
  cases (moves_of_step hstep).2 with
  | leave ht =>
    rw [hproc] at ht
    cases ht
    rw [counted, ledger_leave]
    exact Ledger.count_leave_iff h hleaving
  | reply ht hne =>
    rw [hproc] at ht
    cases ht
    exact absurd rfl hne
  | nothing ht hne =>
    rw [hproc] at ht
    cases ht
    exact absurd ⟨rfl, rfl⟩ hne

/-- A client is reported because it can be written to, and again because it has
disconnected, before a worker has taken the first of the two jobs.  Both workers read the
end of file, count the client off and close it. -/
theorem disconnect_counted_twice : ¬ ∀ n p (s : State n), (server n p).Reachable s →
    (Settled s → s.curfds = 1 + s.clients.card) ∧ (∀ fd, s.closes fd ≤ s.accepts fd) ∧
      1 ≤ s.curfds := by
  intro h
  have hrun := h 2 ports _ (reachable_of_labels [.connect 4, .report [4], .accept 104, .main, .main,
    .main, .arrive 104 .room, .report [104], .main, .main, .arrive 104 .fin, .report [104], .main,
    .main, .take 0, .take 1, .recv (.worker 0), .recv (.worker 1), .done (.worker 0) [],
    .done (.worker 1) [], .close (.worker 0), .close (.worker 1)] rfl)
  have hcurfds : (1 : ℤ) ≤ 0 := hrun.2.2
  exact absurd hcurfds (by decide)

end MultiPort
end UnixNetwork
