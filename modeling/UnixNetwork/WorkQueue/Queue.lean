import Mathlib.Data.Fintype.Basic
import UnixNetwork.Tables.Links
import UnixNetwork.Transition.Mutex
import UnixNetwork.Transition.System

/-!
# The work queue

The thread pool of `mul_port_client_epoll/server_mulport_epoll.c` as a transition
system: `n` workers, any number of calls of `workqueue_add_job`, each with its own job,
and one of `workqueue_shutdown`.

Jobs are the addresses of cells in a heap, whose pointers hold anything at the start.
`LL_ADD` and `LL_REMOVE` are `llAdd` and `llRemove`, one store after the other.

A worker waits on the condition variable at three places: it gives the mutex back and
goes to sleep in one step (`wait`), it sleeps (`blocked`), and it must have the mutex
again (`woken`) before it looks at the list.  The workers' own list is only walked along
by `workqueue_shutdown` and is a list here.

`added` is the jobs in the order in which they were put into the list, and `handed` who
took which one out of it; the program does not keep them.
-/

namespace UnixNetwork
namespace WorkQueue

open Links

/-- The cells that jobs are, by their address. -/
abbrev Heap := ℕ → Links ℕ

/-- `LL_ADD(item, list)`. -/
def llAdd (item : ℕ) (heap : Heap) (list : Option ℕ) : Heap × Option ℕ :=
  let heap := Function.update heap item { heap item with prev := none }
  let heap := Function.update heap item { heap item with next := list }
  (heap, some item)

/-- `LL_REMOVE(item, list)`. -/
def llRemove (item : ℕ) (heap : Heap) (list : Option ℕ) : Heap × Option ℕ :=
  let heap :=
    match (heap item).prev with
    | some p => Function.update heap p { heap p with next := (heap item).next }
    | none => heap
  let heap :=
    match (heap item).next with
    | some q => Function.update heap q { heap q with prev := (heap item).prev }
    | none => heap
  let list := if list = some item then (heap item).next else list
  (Function.update heap item ⟨none, none⟩, list)

/-- Where a worker is. -/
inductive WorkerPc where
  /-- `pthread_mutex_lock` -/
  | lock
  /-- `while (waiting_jobs == NULL)` -/
  | test
  /-- the list was empty: `if (worker->terminate)` -/
  | empty
  /-- `pthread_cond_wait` -/
  | wait
  | blocked
  | woken
  /-- behind the inner loop: `if (worker->terminate)` -/
  | check
  /-- `LL_REMOVE` -/
  | remove
  /-- `pthread_mutex_unlock` -/
  | unlock (job : Option ℕ)
  /-- `job->job_function(job)` -/
  | running (job : ℕ)
  /-- behind the loop -/
  | leaving
  /-- after `pthread_exit` -/
  | exited
  deriving DecidableEq

/-- Where a call of `workqueue_add_job` is. -/
inductive AddPc where
  | idle
  | holding
  /-- `LL_ADD` is done -/
  | listed
  /-- `pthread_cond_signal` is done -/
  | signalled
  | returned
  deriving DecidableEq

/-- Where `workqueue_shutdown` is. -/
inductive ShutdownPc (n : ℕ) where
  | idle
  /-- the flags of these workers are still to be set -/
  | flagging (rest : List (Fin n))
  | holding
  /-- both lists are empty -/
  | cleared
  /-- `pthread_cond_broadcast` is done -/
  | broadcast
  | returned
  deriving DecidableEq

/-- Who can own `jobs_mutex`. -/
inductive Thread (n : ℕ) where
  | worker (w : Fin n)
  | add (job : ℕ)
  | shutdown
  deriving DecidableEq

/-- The queue and everyone who uses it. -/
structure State (n : ℕ) where
  heap : Heap
  waitingJobs : Option ℕ
  workers : List (Fin n)
  owner : Option (Thread n)
  terminate : Fin n → Bool
  worker : Fin n → WorkerPc
  add : ℕ → AddPc
  shutdown : ShutdownPc n
  added : List ℕ
  handed : List (Fin n × ℕ)

variable {n : ℕ}

namespace State

/-- A worker goes on. -/
def goto (s : State n) (w : Fin n) (pc : WorkerPc) : State n :=
  { s with worker := Function.update s.worker w pc }

/-- A call of `workqueue_add_job` goes on. -/
def addTo (s : State n) (job : ℕ) (pc : AddPc) : State n :=
  { s with add := Function.update s.add job pc }

/-- `pthread_mutex_lock`, when the mutex is free. -/
def acquire (s : State n) (t : Thread n) : Option (State n) :=
  if s.owner = none then some { s with owner := some t } else none

/-- `pthread_mutex_unlock`. -/
def release (s : State n) : State n := { s with owner := none }

end State

/-! ## The code -/

/-- `worker_function`. -/
def workerStep (s : State n) (w : Fin n) : Option (State n) :=
  match s.worker w with
  | .lock => (s.acquire (.worker w)).map (·.goto w .test)
  | .test => some (s.goto w (if s.waitingJobs = none then .empty else .check))
  | .empty => some (s.goto w (if s.terminate w then .check else .wait))
  | .wait => some (s.release.goto w .blocked)
  | .blocked => none
  | .woken => (s.acquire (.worker w)).map (·.goto w .test)
  | .check => some (s.goto w (if s.terminate w then .leaving else .remove))
  | .remove =>
    match s.waitingJobs with
    | none => some (s.goto w (.unlock none))
    | some job =>
      some ({ s with heap := (llRemove job s.heap s.waitingJobs).1,
                     waitingJobs := (llRemove job s.heap s.waitingJobs).2,
                     handed := s.handed ++ [(w, job)] }.goto w (.unlock (some job)))
  | .unlock none => some (s.release.goto w .lock)
  | .unlock (some job) => some (s.release.goto w (.running job))
  | .running _ => some (s.goto w .lock)
  | .leaving => some (s.goto w .exited)
  | .exited => none

/-- A sleeping worker wakes up. -/
def wake (s : State n) (w : Fin n) : Option (State n) :=
  if s.worker w = .blocked then some (s.goto w .woken) else none

/-- `workqueue_add_job` up to its `pthread_cond_signal`, and behind it. -/
def addStep (s : State n) (job : ℕ) : Option (State n) :=
  match s.add job with
  | .idle => (s.acquire (.add job)).map (·.addTo job .holding)
  | .holding =>
    some ({ s with heap := (llAdd job s.heap s.waitingJobs).1,
                   waitingJobs := (llAdd job s.heap s.waitingJobs).2,
                   added := s.added ++ [job] }.addTo job .listed)
  | .listed => none
  | .signalled => some (s.release.addTo job .returned)
  | .returned => none

/-- `pthread_cond_signal`: which worker wakes up is not the program's choice. -/
def condSignal (s : State n) : Option (Fin n) → Option (State n)
  | some w => wake s w
  | none => if ∀ w, s.worker w ≠ .blocked then some s else none

/-- `pthread_cond_broadcast`. -/
def condBroadcast (s : State n) : State n :=
  { s with worker := fun w => if s.worker w = .blocked then .woken else s.worker w }

/-- `workqueue_shutdown`. -/
def shutdownStep (s : State n) : Option (State n) :=
  match s.shutdown with
  | .idle => some { s with shutdown := .flagging s.workers }
  | .flagging (w :: rest) =>
    some { s with terminate := Function.update s.terminate w true, shutdown := .flagging rest }
  | .flagging [] => (s.acquire .shutdown).map ({ · with shutdown := .holding })
  | .holding => some { s with workers := [], waitingJobs := none, shutdown := .cleared }
  | .cleared => some { condBroadcast s with shutdown := .broadcast }
  | .broadcast => some { s.release with shutdown := .returned }
  | .returned => none

/-- Who does the next step. -/
inductive Label (n : ℕ) where
  | worker (w : Fin n)
  /-- a wake-up nobody asked for -/
  | spurious (w : Fin n)
  | add (job : ℕ)
  | signal (job : ℕ) (woken : Option (Fin n))
  | shutdown

/-- One step. -/
def step (s : State n) : Label n → Option (State n)
  | .worker w => workerStep s w
  | .spurious w => wake s w
  | .add job => addStep s job
  | .signal job woken =>
    if s.add job = .listed then (condSignal s woken).map (·.addTo job .signalled) else none
  | .shutdown => shutdownStep s

/-- After `workqueue_init`: `LL_ADD` has put the last worker in front. -/
def start (n : ℕ) (heap : Heap) : State n where
  heap := heap
  waitingJobs := none
  workers := (List.finRange n).reverse
  owner := none
  terminate := fun _ => false
  worker := fun _ => .lock
  add := fun _ => .idle
  shutdown := .idle
  added := []
  handed := []

/-- A queue with `n` workers, and jobs in memory that holds anything. -/
def queue (n : ℕ) (heap : Heap) : TransitionSystem (State n) (Label n) where
  init := fun s => s = start n heap
  step := fun s l s' => step s l = some s'

/-! ## What a step does -/

/-- The steps, case by case. -/
inductive Moves (s : State n) : Label n → State n → Prop
  | lock {w : Fin n} : s.worker w = .lock ∨ s.worker w = .woken → s.owner = none →
      Moves s (.worker w) ({ s with owner := some (.worker w) }.goto w .test)
  | test_empty {w : Fin n} : s.worker w = .test → s.waitingJobs = none →
      Moves s (.worker w) (s.goto w .empty)
  | test_jobs {w : Fin n} : s.worker w = .test → s.waitingJobs ≠ none →
      Moves s (.worker w) (s.goto w .check)
  | empty_terminate {w : Fin n} : s.worker w = .empty → s.terminate w = true →
      Moves s (.worker w) (s.goto w .check)
  | empty_wait {w : Fin n} : s.worker w = .empty → s.terminate w = false →
      Moves s (.worker w) (s.goto w .wait)
  | wait {w : Fin n} : s.worker w = .wait → Moves s (.worker w) (s.release.goto w .blocked)
  | check_terminate {w : Fin n} : s.worker w = .check → s.terminate w = true →
      Moves s (.worker w) (s.goto w .leaving)
  | check_go {w : Fin n} : s.worker w = .check → s.terminate w = false →
      Moves s (.worker w) (s.goto w .remove)
  | remove_none {w : Fin n} : s.worker w = .remove → s.waitingJobs = none →
      Moves s (.worker w) (s.goto w (.unlock none))
  | remove {w : Fin n} {job : ℕ} : s.worker w = .remove → s.waitingJobs = some job →
      Moves s (.worker w)
        ({ s with heap := (llRemove job s.heap s.waitingJobs).1,
                  waitingJobs := (llRemove job s.heap s.waitingJobs).2,
                  handed := s.handed ++ [(w, job)] }.goto w (.unlock (some job)))
  | unlock_none {w : Fin n} : s.worker w = .unlock none →
      Moves s (.worker w) (s.release.goto w .lock)
  | unlock {w : Fin n} {job : ℕ} : s.worker w = .unlock (some job) →
      Moves s (.worker w) (s.release.goto w (.running job))
  | ran {w : Fin n} {job : ℕ} : s.worker w = .running job → Moves s (.worker w) (s.goto w .lock)
  | leaving {w : Fin n} : s.worker w = .leaving → Moves s (.worker w) (s.goto w .exited)
  | spurious {w : Fin n} : s.worker w = .blocked → Moves s (.spurious w) (s.goto w .woken)
  | add_lock {job : ℕ} : s.add job = .idle → s.owner = none →
      Moves s (.add job) ({ s with owner := some (.add job) }.addTo job .holding)
  | add_list {job : ℕ} : s.add job = .holding →
      Moves s (.add job)
        ({ s with heap := (llAdd job s.heap s.waitingJobs).1,
                  waitingJobs := (llAdd job s.heap s.waitingJobs).2,
                  added := s.added ++ [job] }.addTo job .listed)
  | signal {job : ℕ} {w : Fin n} : s.add job = .listed → s.worker w = .blocked →
      Moves s (.signal job (some w)) ((s.goto w .woken).addTo job .signalled)
  | signal_nobody {job : ℕ} : s.add job = .listed → (∀ w, s.worker w ≠ .blocked) →
      Moves s (.signal job none) (s.addTo job .signalled)
  | add_unlock {job : ℕ} : s.add job = .signalled →
      Moves s (.add job) (s.release.addTo job .returned)
  | shutdown_begin : s.shutdown = .idle → Moves s .shutdown { s with shutdown := .flagging s.workers }
  | flag {w : Fin n} {rest : List (Fin n)} : s.shutdown = .flagging (w :: rest) →
      Moves s .shutdown
        { s with terminate := Function.update s.terminate w true, shutdown := .flagging rest }
  | shutdown_lock : s.shutdown = .flagging [] → s.owner = none →
      Moves s .shutdown { s with owner := some .shutdown, shutdown := .holding }
  | clear : s.shutdown = .holding →
      Moves s .shutdown { s with workers := [], waitingJobs := none, shutdown := .cleared }
  | broadcast : s.shutdown = .cleared →
      Moves s .shutdown { condBroadcast s with shutdown := .broadcast }
  | shutdown_unlock : s.shutdown = .broadcast →
      Moves s .shutdown { s.release with shutdown := .returned }

theorem map_acquire_eq_some {s s' : State n} {t : Thread n} {f : State n → State n}
    (h : (s.acquire t).map f = some s') : s.owner = none ∧ f { s with owner := some t } = s' := by
  unfold State.acquire at h
  split at h
  · rename_i howner
    exact ⟨howner, Option.some.inj h⟩
  · cases h

theorem moves_of_workerStep {s s' : State n} {w : Fin n} (h : workerStep s w = some s') :
    Moves s (.worker w) s' := by
  unfold workerStep at h
  split at h
  case h_1 hw =>
    obtain ⟨howner, rfl⟩ := map_acquire_eq_some h
    exact .lock (Or.inl hw) howner
  case h_2 hw =>
    cases h
    split
    · exact .test_empty hw ‹_›
    · exact .test_jobs hw ‹_›
  case h_3 hw =>
    cases h
    split
    · exact .empty_terminate hw ‹_›
    · exact .empty_wait hw (Bool.eq_false_iff.mpr ‹_›)
  case h_4 hw =>
    cases h
    exact .wait hw
  case h_5 => cases h
  case h_6 hw =>
    obtain ⟨howner, rfl⟩ := map_acquire_eq_some h
    exact .lock (Or.inr hw) howner
  case h_7 hw =>
    cases h
    split
    · exact .check_terminate hw ‹_›
    · exact .check_go hw (Bool.eq_false_iff.mpr ‹_›)
  case h_8 hw =>
    split at h
    · cases h
      exact .remove_none hw ‹_›
    · cases h
      exact .remove hw ‹_›
  case h_9 hw =>
    cases h
    exact .unlock_none hw
  case h_10 hw =>
    cases h
    exact .unlock hw
  case h_11 hw =>
    cases h
    exact .ran hw
  case h_12 hw =>
    cases h
    exact .leaving hw
  case h_13 => cases h

theorem moves_of_addStep {s s' : State n} {job : ℕ} (h : addStep s job = some s') :
    Moves s (.add job) s' := by
  unfold addStep at h
  split at h
  case h_1 hj =>
    obtain ⟨howner, rfl⟩ := map_acquire_eq_some h
    exact .add_lock hj howner
  case h_2 hj =>
    cases h
    exact .add_list hj
  case h_3 => cases h
  case h_4 hj =>
    cases h
    exact .add_unlock hj
  case h_5 => cases h

theorem moves_of_shutdownStep {s s' : State n} (h : shutdownStep s = some s') :
    Moves s .shutdown s' := by
  unfold shutdownStep at h
  split at h
  case h_1 hd =>
    cases h
    exact .shutdown_begin hd
  case h_2 hd =>
    cases h
    exact .flag hd
  case h_3 hd =>
    obtain ⟨howner, rfl⟩ := map_acquire_eq_some h
    exact .shutdown_lock hd howner
  case h_4 hd =>
    cases h
    exact .clear hd
  case h_5 hd =>
    cases h
    exact .broadcast hd
  case h_6 hd =>
    cases h
    exact .shutdown_unlock hd
  case h_7 => cases h

theorem wake_eq_some {s s' : State n} {w : Fin n} (h : wake s w = some s') :
    s.worker w = .blocked ∧ s' = s.goto w .woken := by
  unfold wake at h
  split at h
  · exact ⟨‹_›, (Option.some.inj h).symm⟩
  · cases h

/-- **What a step does.** -/
theorem moves_of_step {s s' : State n} {l : Label n} (h : step s l = some s') : Moves s l s' := by
  cases l with
  | worker w => exact moves_of_workerStep h
  | spurious w =>
    obtain ⟨hw, rfl⟩ := wake_eq_some h
    exact .spurious hw
  | add job => exact moves_of_addStep h
  | signal job woken =>
    rw [step] at h
    split at h
    · rename_i hj
      obtain ⟨t, ht, rfl⟩ := Option.map_eq_some_iff.mp h
      cases woken with
      | some w =>
        obtain ⟨hw, rfl⟩ := wake_eq_some ht
        exact .signal hj hw
      | none =>
        rw [condSignal] at ht
        split at ht
        · cases ht
          exact .signal_nobody hj ‹_›
        · cases ht
    · cases h
  | shutdown => exact moves_of_shutdownStep h

/-- What holds at the start and survives each step holds in all runs. -/
theorem invariant {heap : Heap} {P : State n → Prop} (hstart : P (start n heap))
    (hstep : ∀ s l s', P s → Moves s l s' → P s') {s : State n} (h : (queue n heap).Reachable s) :
    P s := by
  refine TransitionSystem.Reachable.invariant (P := P) ?_ ?_ h
  · rintro s rfl
    exact hstart
  · intro s l s' hs hs'
    exact hstep s l s' hs (moves_of_step hs')

/-- A run given by its labels. -/
theorem reachable_of_labels {heap : Heap} {s : State n} (labels : List (Label n))
    (h : labels.foldlM step (start n heap) = some s) : (queue n heap).Reachable s := by
  have hstart : (queue n heap).Reachable (start n heap) := .init rfl
  exact hstart.follow (fun _ _ _ hs => hs) h

end WorkQueue
end UnixNetwork
