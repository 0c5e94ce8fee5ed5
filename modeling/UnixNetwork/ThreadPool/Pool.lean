import Mathlib.Data.Fintype.Basic
import UnixNetwork.Transition.Mutex
import UnixNetwork.Transition.System

/-!
# The thread pool

`ThreadPool` of `epoll_study/thread_pools.h`, which `thread_pool_yjs.h` and
`thread_pool_yjs.cpp` repeat, as a transition system: `n` workers, any number of calls
of `commit`, and the destructor, one step of one of them at a time.

A worker's place in its loop is a `WorkerPc`.  Waiting on the condition variable is
four places: the predicate is evaluated (`pred`) and, if it is false, the worker
gives the mutex back and goes to sleep in one step (`block`); it sleeps (`blocked`)
until it is notified or wakes up by itself, and must have the mutex again (`woken`)
before the predicate is next evaluated.

A call of `commit` is a number, and so is the task it appends; nothing else about a
task matters but that it returns.  `appended`, `started` and `finished` are the tasks
in the order in which that was done to them; the program does not keep them.

`Moves` is what one step does, case by case; `moves_of_step` is the only place where
`step` is unfolded.
-/

namespace UnixNetwork
namespace ThreadPool

/-- `THREADPOOL_MAX_NUM`. -/
def maxNum : ℕ := 16

/-- The loop of `create_threadpool`, with the threads started so far. -/
def createLoop (threads i : ℕ) (pools : ℕ) : ℕ :=
  if i < threads ∧ threads < maxNum then createLoop threads (i + 1) (pools + 1) else pools
termination_by threads - i

/-- `create_threadpool`: how many workers there are afterwards. -/
def createThreadpool (threads : ℕ) : ℕ := createLoop threads 0 0

theorem createLoop_eq {threads : ℕ} (h : threads < maxNum) {i : ℕ} (hi : i ≤ threads) (pools : ℕ) :
    createLoop threads i pools = pools + (threads - i) := by
  induction hk : threads - i generalizing i pools with
  | zero =>
    have hge : ¬ (i < threads ∧ threads < maxNum) := fun hlt => by omega
    rw [createLoop, if_neg hge, Nat.add_zero]
  | succ k ih =>
    rw [createLoop, if_pos ⟨by omega, h⟩, ih (by omega) (pools + 1) (by omega)]
    omega

/-- **How many workers**: as many as were asked for, or none. -/
theorem createThreadpool_eq (threads : ℕ) :
    createThreadpool threads = if threads < maxNum then threads else 0 := by
  rw [createThreadpool]
  split
  · rename_i h
    rw [createLoop_eq h (Nat.zero_le _), Nat.zero_add, Nat.sub_zero]
  · rename_i h
    rw [createLoop, if_neg fun hlt => h hlt.2]

/-- Where a worker is. -/
inductive WorkerPc where
  /-- `while (!stop)` -/
  | test
  /-- `unique_lock<mutex> lock{_lock}` -/
  | lock
  /-- the predicate of `wait` -/
  | pred
  /-- it was false -/
  | block
  | blocked
  | woken
  /-- `if (stop && _tasks.empty())` -/
  | check
  /-- `_tasks.front()` and `_tasks.pop()` -/
  | take
  | taken (task : ℕ)
  | running (task : ℕ)
  /-- the end of the scope of `lock` -/
  | unlock
  /-- `return` -/
  | returning
  /-- behind the loop -/
  | leaving
  | exited
  deriving DecidableEq

/-- Where a call of `commit` is. -/
inductive CommitPc where
  | idle
  /-- the task is made -/
  | made
  | holding
  /-- `_tasks.emplace` is done -/
  | enqueued
  /-- before `notify_one` -/
  | unlocked
  | returned
  | thrown
  deriving DecidableEq

/-- Where the destructor is. -/
inductive DtorPc where
  | idle
  /-- `stop` is stored -/
  | stored
  /-- `notify_all` is done, and so many workers are joined -/
  | joining (joined : ℕ)
  | returned
  deriving DecidableEq

/-- Who can own `_lock`. -/
inductive Thread (n : ℕ) where
  | worker (w : Fin n)
  | commit (c : ℕ)
  deriving DecidableEq

/-- The pool and everyone who uses it. -/
structure State (n : ℕ) where
  stop : Bool
  tasks : List ℕ
  owner : Option (Thread n)
  idlThrNum : ℤ
  worker : Fin n → WorkerPc
  commit : ℕ → CommitPc
  dtor : DtorPc
  appended : List ℕ
  started : List ℕ
  finished : List ℕ

variable {n : ℕ}

namespace State

/-- A worker goes on. -/
def goto (s : State n) (w : Fin n) (pc : WorkerPc) : State n :=
  { s with worker := Function.update s.worker w pc }

/-- A call of `commit` goes on. -/
def commitTo (s : State n) (c : ℕ) (pc : CommitPc) : State n :=
  { s with commit := Function.update s.commit c pc }

/-- `_lock` is taken, if it is free. -/
def acquire (s : State n) (t : Thread n) : Option (State n) :=
  if s.owner = none then some { s with owner := some t } else none

/-- `_lock` is given back. -/
def release (s : State n) : State n := { s with owner := none }

end State

/-! ## The code -/

/-- A worker. -/
def workerStep (s : State n) (w : Fin n) : Option (State n) :=
  match s.worker w with
  | .test => some (s.goto w (if s.stop then .leaving else .lock))
  | .lock => (s.acquire (.worker w)).map (·.goto w .pred)
  | .pred => some (s.goto w (if s.stop ∨ s.tasks ≠ [] then .check else .block))
  | .block => some (s.release.goto w .blocked)
  | .blocked => none
  | .woken => (s.acquire (.worker w)).map (·.goto w .pred)
  | .check => some (s.goto w (if s.stop ∧ s.tasks = [] then .returning else .take))
  | .take =>
    match s.tasks with
    | [] => none
    | task :: tasks =>
      some ({ s with tasks := tasks, idlThrNum := s.idlThrNum - 1 }.goto w (.taken task))
  | .taken task => some ({ s with started := s.started ++ [task] }.goto w (.running task))
  | .running task =>
    some ({ s with finished := s.finished ++ [task], idlThrNum := s.idlThrNum + 1 }.goto w .unlock)
  | .unlock => some (s.release.goto w .test)
  | .returning => some (s.release.goto w .exited)
  | .leaving => some ({ s with idlThrNum := s.idlThrNum + 1 }.goto w .exited)
  | .exited => none

/-- `commit` up to its `notify_one`. -/
def commitStep (s : State n) (c : ℕ) : Option (State n) :=
  match s.commit c with
  | .idle => some (s.commitTo c (if s.stop then .thrown else .made))
  | .made => (s.acquire (.commit c)).map (·.commitTo c .holding)
  | .holding =>
    some ({ s with tasks := s.tasks ++ [c], appended := s.appended ++ [c] }.commitTo c .enqueued)
  | .enqueued => some (s.release.commitTo c .unlocked)
  | .unlocked => none
  | .returned => none
  | .thrown => none

/-- A sleeping worker wakes up. -/
def wake (s : State n) (w : Fin n) : Option (State n) :=
  if s.worker w = .blocked then some (s.goto w .woken) else none

/-- `_task_cv.notify_one()`: which worker wakes up is not the program's choice. -/
def notifyOne (s : State n) : Option (Fin n) → Option (State n)
  | some w => wake s w
  | none => if ∀ w, s.worker w ≠ .blocked then some s else none

/-- `_task_cv.notify_all()`. -/
def notifyAll (s : State n) : State n :=
  { s with worker := fun w => if s.worker w = .blocked then .woken else s.worker w }

/-- `~ThreadPool`. -/
def dtorStep (s : State n) : Option (State n) :=
  match s.dtor with
  | .idle => some { s with stop := true, dtor := .stored }
  | .stored => some { notifyAll s with dtor := .joining 0 }
  | .joining k =>
    if h : k < n then
      if s.worker ⟨k, h⟩ = .exited then some { s with dtor := .joining (k + 1) } else none
    else some { s with dtor := .returned }
  | .returned => none

/-- Who does the next step. -/
inductive Label (n : ℕ) where
  | worker (w : Fin n)
  /-- a wake-up nobody asked for -/
  | spurious (w : Fin n)
  | commit (c : ℕ)
  | notify (c : ℕ) (woken : Option (Fin n))
  | dtor

/-- One step. -/
def step (s : State n) : Label n → Option (State n)
  | .worker w => workerStep s w
  | .spurious w => wake s w
  | .commit c => commitStep s c
  | .notify c woken =>
    if s.commit c = .unlocked then (notifyOne s woken).map (·.commitTo c .returned) else none
  | .dtor => dtorStep s

/-- After the constructor. -/
def start (n : ℕ) : State n where
  stop := false
  tasks := []
  owner := none
  idlThrNum := 0
  worker := fun _ => .test
  commit := fun _ => .idle
  dtor := .idle
  appended := []
  started := []
  finished := []

/-- A pool with `n` workers. -/
def pool (n : ℕ) : TransitionSystem (State n) (Label n) where
  init := fun s => s = start n
  step := fun s l s' => step s l = some s'

/-! ## What a step does -/

/-- The steps, case by case. -/
inductive Moves (s : State n) : Label n → State n → Prop
  | test_stop {w : Fin n} : s.worker w = .test → s.stop = true →
      Moves s (.worker w) (s.goto w .leaving)
  | test_go {w : Fin n} : s.worker w = .test → s.stop = false → Moves s (.worker w) (s.goto w .lock)
  | lock {w : Fin n} : s.worker w = .lock ∨ s.worker w = .woken → s.owner = none →
      Moves s (.worker w) ({ s with owner := some (.worker w) }.goto w .pred)
  | pred_true {w : Fin n} : s.worker w = .pred → s.stop = true ∨ s.tasks ≠ [] →
      Moves s (.worker w) (s.goto w .check)
  | pred_false {w : Fin n} : s.worker w = .pred → s.stop = false → s.tasks = [] →
      Moves s (.worker w) (s.goto w .block)
  | block {w : Fin n} : s.worker w = .block → Moves s (.worker w) (s.release.goto w .blocked)
  | check_return {w : Fin n} : s.worker w = .check → s.stop = true → s.tasks = [] →
      Moves s (.worker w) (s.goto w .returning)
  | check_take {w : Fin n} : s.worker w = .check → s.stop = false ∨ s.tasks ≠ [] →
      Moves s (.worker w) (s.goto w .take)
  | take {w : Fin n} {task : ℕ} {tasks : List ℕ} : s.worker w = .take → s.tasks = task :: tasks →
      Moves s (.worker w)
        ({ s with tasks := tasks, idlThrNum := s.idlThrNum - 1 }.goto w (.taken task))
  | start {w : Fin n} {task : ℕ} : s.worker w = .taken task →
      Moves s (.worker w) ({ s with started := s.started ++ [task] }.goto w (.running task))
  | finish {w : Fin n} {task : ℕ} : s.worker w = .running task →
      Moves s (.worker w) ({ s with finished := s.finished ++ [task],
                                    idlThrNum := s.idlThrNum + 1 }.goto w .unlock)
  | unlock {w : Fin n} : s.worker w = .unlock → Moves s (.worker w) (s.release.goto w .test)
  | returning {w : Fin n} : s.worker w = .returning →
      Moves s (.worker w) (s.release.goto w .exited)
  | leaving {w : Fin n} : s.worker w = .leaving →
      Moves s (.worker w) ({ s with idlThrNum := s.idlThrNum + 1 }.goto w .exited)
  | spurious {w : Fin n} : s.worker w = .blocked → Moves s (.spurious w) (s.goto w .woken)
  | commit_refused {c : ℕ} : s.commit c = .idle → s.stop = true →
      Moves s (.commit c) (s.commitTo c .thrown)
  | commit_made {c : ℕ} : s.commit c = .idle → s.stop = false →
      Moves s (.commit c) (s.commitTo c .made)
  | commit_lock {c : ℕ} : s.commit c = .made → s.owner = none →
      Moves s (.commit c) ({ s with owner := some (.commit c) }.commitTo c .holding)
  | commit_append {c : ℕ} : s.commit c = .holding →
      Moves s (.commit c)
        ({ s with tasks := s.tasks ++ [c], appended := s.appended ++ [c] }.commitTo c .enqueued)
  | commit_unlock {c : ℕ} : s.commit c = .enqueued →
      Moves s (.commit c) (s.release.commitTo c .unlocked)
  | notify {c : ℕ} {w : Fin n} : s.commit c = .unlocked → s.worker w = .blocked →
      Moves s (.notify c (some w)) ((s.goto w .woken).commitTo c .returned)
  | notify_nobody {c : ℕ} : s.commit c = .unlocked → (∀ w, s.worker w ≠ .blocked) →
      Moves s (.notify c none) (s.commitTo c .returned)
  | stop : s.dtor = .idle → Moves s .dtor { s with stop := true, dtor := .stored }
  | notify_all : s.dtor = .stored → Moves s .dtor { notifyAll s with dtor := .joining 0 }
  | join {k : ℕ} (hk : k < n) : s.dtor = .joining k → s.worker ⟨k, hk⟩ = .exited →
      Moves s .dtor { s with dtor := .joining (k + 1) }
  | destroyed {k : ℕ} : s.dtor = .joining k → n ≤ k → Moves s .dtor { s with dtor := .returned }

theorem map_acquire_eq_some {s s' : State n} {t : Thread n} {f : State n → State n}
    (h : (s.acquire t).map f = some s') : s.owner = none ∧ f { s with owner := some t } = s' := by
  unfold State.acquire at h
  split at h
  · rename_i howner
    exact ⟨howner, Option.some.inj h⟩
  · cases h

theorem moves_of_workerStep {s s' : State n} {w : Fin n} (h : workerStep s w = some s') :
    Moves s (.worker w) s' := by
  unfold workerStep at h
  split at h
  case h_1 hw =>
    cases h
    split
    · exact .test_stop hw ‹_›
    · exact .test_go hw (Bool.eq_false_iff.mpr ‹_›)
  case h_2 hw =>
    obtain ⟨howner, rfl⟩ := map_acquire_eq_some h
    exact .lock (Or.inl hw) howner
  case h_3 hw =>
    cases h
    split
    · exact .pred_true hw ‹_›
    · rename_i hnot
      rw [not_or, not_not] at hnot
      exact .pred_false hw (Bool.eq_false_iff.mpr hnot.1) hnot.2
  case h_4 hw =>
    cases h
    exact .block hw
  case h_5 => cases h
  case h_6 hw =>
    obtain ⟨howner, rfl⟩ := map_acquire_eq_some h
    exact .lock (Or.inr hw) howner
  case h_7 hw =>
    cases h
    split
    · rename_i hboth
      exact .check_return hw hboth.1 hboth.2
    · rename_i hnot
      rw [not_and_or, Bool.not_eq_true] at hnot
      exact .check_take hw hnot
  case h_8 hw =>
    split at h
    · cases h
    · cases h
      exact .take hw ‹_›
  case h_9 hw =>
    cases h
    exact .start hw
  case h_10 hw =>
    cases h
    exact .finish hw
  case h_11 hw =>
    cases h
    exact .unlock hw
  case h_12 hw =>
    cases h
    exact .returning hw
  case h_13 hw =>
    cases h
    exact .leaving hw
  case h_14 => cases h

theorem moves_of_commitStep {s s' : State n} {c : ℕ} (h : commitStep s c = some s') :
    Moves s (.commit c) s' := by
  unfold commitStep at h
  split at h
  case h_1 hc =>
    cases h
    split
    · exact .commit_refused hc ‹_›
    · exact .commit_made hc (Bool.eq_false_iff.mpr ‹_›)
  case h_2 hc =>
    obtain ⟨howner, rfl⟩ := map_acquire_eq_some h
    exact .commit_lock hc howner
  case h_3 hc =>
    cases h
    exact .commit_append hc
  case h_4 hc =>
    cases h
    exact .commit_unlock hc
  case h_5 => cases h
  case h_6 => cases h
  case h_7 => cases h

theorem moves_of_dtorStep {s s' : State n} (h : dtorStep s = some s') : Moves s .dtor s' := by
  unfold dtorStep at h
  split at h
  case h_1 hd =>
    cases h
    exact .stop hd
  case h_2 hd =>
    cases h
    exact .notify_all hd
  case h_3 k hd =>
    split at h
    · split at h
      · cases h
        exact .join _ hd ‹_›
      · cases h
    · cases h
      exact .destroyed hd (not_lt.mp ‹_›)
  case h_4 => cases h

theorem wake_eq_some {s s' : State n} {w : Fin n} (h : wake s w = some s') :
    s.worker w = .blocked ∧ s' = s.goto w .woken := by
  unfold wake at h
  split at h
  · exact ⟨‹_›, (Option.some.inj h).symm⟩
  · cases h

/-- **What a step does.** -/
theorem moves_of_step {s s' : State n} {l : Label n} (h : step s l = some s') : Moves s l s' := by
  cases l with
  | worker w => exact moves_of_workerStep h
  | spurious w =>
    obtain ⟨hw, rfl⟩ := wake_eq_some h
    exact .spurious hw
  | commit c => exact moves_of_commitStep h
  | notify c woken =>
    rw [step] at h
    split at h
    · rename_i hc
      obtain ⟨t, ht, rfl⟩ := Option.map_eq_some_iff.mp h
      cases woken with
      | some w =>
        obtain ⟨hw, rfl⟩ := wake_eq_some ht
        exact .notify hc hw
      | none =>
        rw [notifyOne] at ht
        split at ht
        · cases ht
          exact .notify_nobody hc ‹_›
        · cases ht
    · cases h
  | dtor => exact moves_of_dtorStep h

/-! ## Who has the mutex -/

/-- The places where a worker has `_lock`. -/
def WorkerPc.inside : WorkerPc → Bool
  | .pred | .block | .check | .take | .taken _ | .running _ | .unlock | .returning => true
  | _ => false

/-- The places where a call of `commit` has `_lock`. -/
def CommitPc.inside : CommitPc → Bool
  | .holding | .enqueued => true
  | _ => false

/-- Who is at such a place. -/
def Inside (s : State n) : Thread n → Prop
  | .worker w => (s.worker w).inside = true
  | .commit c => (s.commit c).inside = true

@[simp] theorem goto_worker_self (s : State n) (w : Fin n) (pc : WorkerPc) :
    (s.goto w pc).worker w = pc := Function.update_self ..

theorem goto_worker_of_ne {w w' : Fin n} (h : w' ≠ w) (s : State n) (pc : WorkerPc) :
    (s.goto w pc).worker w' = s.worker w' := Function.update_of_ne h ..

@[simp] theorem commitTo_commit_self (s : State n) (c : ℕ) (pc : CommitPc) :
    (s.commitTo c pc).commit c = pc := Function.update_self ..

theorem commitTo_commit_of_ne {c c' : ℕ} (h : c' ≠ c) (s : State n) (pc : CommitPc) :
    (s.commitTo c pc).commit c' = s.commit c' := Function.update_of_ne h ..

/-- What a thread that moves can change about the others: nothing. -/
theorem inside_goto {w : Fin n} {t : Thread n} (h : t ≠ .worker w) (s : State n) (pc : WorkerPc) :
    Inside (s.goto w pc) t ↔ Inside s t := by
  cases t with
  | worker w' =>
    have hne : w' ≠ w := fun heq => h (congrArg Thread.worker heq)
    rw [Inside, Inside, goto_worker_of_ne hne]
  | commit c => exact Iff.rfl

theorem inside_commitTo {c : ℕ} {t : Thread n} (h : t ≠ .commit c) (s : State n) (pc : CommitPc) :
    Inside (s.commitTo c pc) t ↔ Inside s t := by
  cases t with
  | worker w => exact Iff.rfl
  | commit c' =>
    have hne : c' ≠ c := fun heq => h (congrArg Thread.commit heq)
    rw [Inside, Inside, commitTo_commit_of_ne hne]

section Owned

variable {s : State n} {w : Fin n} {c : ℕ} {pc : WorkerPc} {pc' : CommitPc}

theorem owned_goto (h : Owned s.owner (Inside s)) (hpc : pc.inside = (s.worker w).inside) :
    Owned s.owner (Inside (s.goto w pc)) := by
  refine h.stay_at (fun t ht => inside_goto ht s pc) ?_
  rw [Inside, Inside, goto_worker_self, hpc]

theorem owned_goto_in (h : Owned s.owner (Inside s)) (howner : s.owner = none)
    (hpc : pc.inside = true) :
    Owned (some (.worker w)) (Inside ({ s with owner := some (.worker w) }.goto w pc)) := by
  refine h.acquire howner (fun t ht => inside_goto ht s pc) ?_
  rw [Inside, goto_worker_self, hpc]

theorem owned_goto_out (h : Owned s.owner (Inside s)) (hw : (s.worker w).inside = true)
    (hpc : pc.inside = false) : Owned none (Inside (s.release.goto w pc)) := by
  have hin : Inside s (.worker w) := hw
  refine h.release hin (fun t ht => inside_goto ht s pc) ?_
  rw [Inside, goto_worker_self, hpc]
  exact Bool.false_ne_true

theorem owned_commitTo (h : Owned s.owner (Inside s)) (hpc : pc'.inside = (s.commit c).inside) :
    Owned s.owner (Inside (s.commitTo c pc')) := by
  refine h.stay_at (fun t ht => inside_commitTo ht s pc') ?_
  rw [Inside, Inside, commitTo_commit_self, hpc]

theorem owned_commitTo_in (h : Owned s.owner (Inside s)) (howner : s.owner = none)
    (hpc : pc'.inside = true) :
    Owned (some (.commit c)) (Inside ({ s with owner := some (.commit c) }.commitTo c pc')) := by
  refine h.acquire howner (fun t ht => inside_commitTo ht s pc') ?_
  rw [Inside, commitTo_commit_self, hpc]

theorem owned_commitTo_out (h : Owned s.owner (Inside s)) (hc : (s.commit c).inside = true)
    (hpc : pc'.inside = false) : Owned none (Inside (s.release.commitTo c pc')) := by
  have hin : Inside s (.commit c) := hc
  refine h.release hin (fun t ht => inside_commitTo ht s pc') ?_
  rw [Inside, commitTo_commit_self, hpc]
  exact Bool.false_ne_true

end Owned

theorem notifyAll_worker (s : State n) (w : Fin n) :
    (notifyAll s).worker w = if s.worker w = .blocked then .woken else s.worker w := rfl

theorem inside_notifyAll (s : State n) (t : Thread n) : Inside (notifyAll s) t ↔ Inside s t := by
  cases t with
  | worker w =>
    rw [Inside, Inside, notifyAll_worker]
    split
    · rename_i hw
      rw [hw]
      exact Iff.rfl
    · exact Iff.rfl
  | commit c => exact Iff.rfl

theorem owned_start (n : ℕ) : Owned (start n).owner (Inside (start n)) := by
  rintro (w | c) <;> simp [start, Inside, WorkerPc.inside, CommitPc.inside]

/-- **Who has the mutex** is who is where it is held. -/
theorem owned_step {s s' : State n} {l : Label n} (h : Owned s.owner (Inside s))
    (hm : Moves s l s') : Owned s'.owner (Inside s') := by
  cases hm with
  | test_stop hw _ => exact owned_goto h (by rw [hw]; rfl)
  | test_go hw _ => exact owned_goto h (by rw [hw]; rfl)
  | lock _ howner => exact owned_goto_in h howner rfl
  | pred_true hw _ => exact owned_goto h (by rw [hw]; rfl)
  | pred_false hw _ _ => exact owned_goto h (by rw [hw]; rfl)
  | block hw => exact owned_goto_out h (by rw [hw]; rfl) rfl
  | check_return hw _ _ => exact owned_goto h (by rw [hw]; rfl)
  | check_take hw _ => exact owned_goto h (by rw [hw]; rfl)
  | take hw _ => exact owned_goto h (by rw [hw]; rfl)
  | start hw => exact owned_goto h (by rw [hw]; rfl)
  | finish hw => exact owned_goto h (by rw [hw]; rfl)
  | unlock hw => exact owned_goto_out h (by rw [hw]; rfl) rfl
  | returning hw => exact owned_goto_out h (by rw [hw]; rfl) rfl
  | leaving hw => exact owned_goto h (by rw [hw]; rfl)
  | spurious hw => exact owned_goto h (by rw [hw]; rfl)
  | commit_refused hc _ => exact owned_commitTo h (by rw [hc]; rfl)
  | commit_made hc _ => exact owned_commitTo h (by rw [hc]; rfl)
  | commit_lock _ howner => exact owned_commitTo_in h howner rfl
  | commit_append hc => exact owned_commitTo h (by rw [hc]; rfl)
  | commit_unlock hc => exact owned_commitTo_out h (by rw [hc]; rfl) rfl
  | @notify c w hc hw =>
    have hwoken : Owned (s.goto w .woken).owner (Inside (s.goto w .woken)) :=
      owned_goto h (by rw [hw]; rfl)
    have hc' : (s.goto w .woken).commit c = .unlocked := hc
    exact owned_commitTo hwoken (by rw [hc']; rfl)
  | notify_nobody hc _ => exact owned_commitTo h (by rw [hc]; rfl)
  | stop _ => exact h
  | notify_all _ => exact h.stay (inside_notifyAll s)
  | join _ _ _ => exact h
  | destroyed _ _ => exact h

/-! ## What a worker's place says -/

/-- What is true of `stop` and `_tasks` as long as a worker is at a place. -/
def WorkerPc.Ok (stop : Bool) (tasks : List ℕ) : WorkerPc → Prop
  | .block => tasks = []
  | .check => stop = true ∨ tasks ≠ []
  | .take => tasks ≠ []
  | .returning | .leaving | .exited => stop = true
  | _ => True

/-- Only who has the mutex depends on `_tasks`. -/
theorem WorkerPc.Ok.of_outside {stop : Bool} {tasks tasks' : List ℕ} {pc : WorkerPc}
    (h : pc.Ok stop tasks) (hpc : pc.inside ≠ true) : pc.Ok stop tasks' := by
  cases pc with
  | block | check | take => exact absurd rfl hpc
  | leaving | exited | returning => exact h
  | _ => trivial

/-- `stop` is never taken back. -/
theorem WorkerPc.Ok.stop {stop : Bool} {tasks : List ℕ} {pc : WorkerPc} (h : pc.Ok stop tasks) :
    pc.Ok true tasks := by
  cases pc with
  | block | take => exact h
  | check => exact Or.inl rfl
  | returning | leaving | exited => rfl
  | _ => trivial

/-- What is true between any two steps. -/
structure Inv (s : State n) : Prop where
  owned : Owned s.owner (Inside s)
  places : ∀ w, (s.worker w).Ok s.stop s.tasks
  stopped : s.dtor ≠ .idle → s.stop = true

theorem Inv.owner_of_worker {s : State n} (hi : Inv s) {w : Fin n}
    (h : (s.worker w).inside = true) : s.owner = some (.worker w) := (hi.owned (.worker w)).mpr h

theorem Inv.owner_of_commit {s : State n} (hi : Inv s) {c : ℕ}
    (h : (s.commit c).inside = true) : s.owner = some (.commit c) := (hi.owned (.commit c)).mpr h

theorem places_goto {s : State n} {w : Fin n} {pc : WorkerPc} {stop : Bool} {tasks : List ℕ}
    (h : ∀ w', w' ≠ w → (s.worker w').Ok stop tasks) (hpc : pc.Ok stop tasks) (w' : Fin n) :
    ((s.goto w pc).worker w').Ok stop tasks := by
  by_cases hw : w' = w
  · rw [hw, goto_worker_self]
    exact hpc
  · rw [goto_worker_of_ne hw]
    exact h w' hw

/-- Whoever has the mutex may change `_tasks`. -/
theorem Inv.others {s : State n} (hi : Inv s) {t : Thread n} (ht : Inside s t) (tasks : List ℕ)
    {w : Fin n} (hw : .worker w ≠ t) : (s.worker w).Ok s.stop tasks :=
  (hi.places w).of_outside fun hin => hw (hi.owned.unique hin ht)

theorem inv_start (n : ℕ) : Inv (start n) :=
  ⟨owned_start n, fun _ => trivial, fun h => absurd rfl h⟩

theorem places_step {s s' : State n} {l : Label n} (hi : Inv s) (hm : Moves s l s') :
    ∀ w, (s'.worker w).Ok s'.stop s'.tasks := by
  have hall : ∀ w : Fin n, ∀ w', w' ≠ w → (s.worker w').Ok s.stop s.tasks :=
    fun _ w' _ => hi.places w'
  cases hm with
  | test_stop _ hstop => exact places_goto (hall _) hstop
  | test_go _ _ => exact places_goto (hall _) trivial
  | lock _ _ => exact places_goto (hall _) trivial
  | pred_true _ hor => exact places_goto (hall _) hor
  | pred_false _ _ hnil => exact places_goto (hall _) hnil
  | block _ => exact places_goto (hall _) trivial
  | check_return _ hstop _ => exact places_goto (hall _) hstop
  | @check_take w hw hor =>
    have hready := hi.places w
    rw [hw] at hready
    have htasks : s.tasks ≠ [] := by
      rcases hor with hstop | htasks
      · exact hready.resolve_left (by rw [hstop]; exact Bool.false_ne_true)
      · exact htasks
    exact places_goto (hall _) htasks
  | @take w task tasks hw htasks =>
    have hin : Inside s (.worker w) := by
      rw [Inside, hw]
      rfl
    exact places_goto (fun w' hne => hi.others hin _ fun heq => hne (Thread.worker.inj heq)) trivial
  | start _ => exact places_goto (hall _) trivial
  | finish _ => exact places_goto (hall _) trivial
  | unlock _ => exact places_goto (hall _) trivial
  | @returning w hw =>
    have hstop := hi.places w
    rw [hw] at hstop
    exact places_goto (hall _) hstop
  | @leaving w hw =>
    have hstop := hi.places w
    rw [hw] at hstop
    exact places_goto (hall _) hstop
  | spurious _ => exact places_goto (hall _) trivial
  | @commit_append c hc =>
    have hin : Inside s (.commit c) := by
      rw [Inside, hc]
      rfl
    exact fun w => hi.others hin _ nofun
  | notify _ _ => exact places_goto (hall _) trivial
  | stop _ => exact fun w => (hi.places w).stop
  | notify_all _ =>
    intro w
    show ((notifyAll s).worker w).Ok s.stop s.tasks
    rw [notifyAll_worker]
    split
    · trivial
    · exact hi.places w
  | commit_refused _ _ | commit_made _ _ | commit_lock _ _ | commit_unlock _
  | notify_nobody _ _ | join _ _ _ | destroyed _ _ => exact hi.places

theorem inv_step {s s' : State n} {l : Label n} (hi : Inv s) (hm : Moves s l s') : Inv s' := by
  refine ⟨owned_step hi.owned hm, places_step hi hm, ?_⟩
  cases hm with
  | stop _ => exact fun _ => rfl
  | notify_all hd => exact fun _ => hi.stopped (by rw [hd]; exact nofun)
  | join _ hd _ => exact fun _ => hi.stopped (by rw [hd]; exact nofun)
  | destroyed hd _ => exact fun _ => hi.stopped (by rw [hd]; exact nofun)
  | _ => exact hi.stopped

/-- What holds at the start and survives each step holds in all runs. -/
theorem invariant {P : State n → Prop} (hstart : P (start n))
    (hstep : ∀ s l s', P s → Moves s l s' → P s') {s : State n} (h : (pool n).Reachable s) : P s := by
  refine h.invariant ?_ ?_
  · rintro s rfl
    exact hstart
  · intro s l s' hs hs'
    exact hstep s l s' hs (moves_of_step hs')

theorem reachable_start (n : ℕ) : (pool n).Reachable (start n) := .init rfl

/-- A run given by its labels. -/
theorem steps_of_labels {s s' : State n} (labels : List (Label n))
    (h : labels.foldlM step s = some s') : (pool n).Steps s s' :=
  TransitionSystem.Steps.follow (fun _ _ _ hs => hs) h

theorem reachable_of_labels {s : State n} (labels : List (Label n))
    (h : labels.foldlM step (start n) = some s) : (pool n).Reachable s :=
  (reachable_start n).steps (steps_of_labels labels h)

theorem inv_of_reachable {s : State n} (h : (pool n).Reachable s) : Inv s :=
  invariant (inv_start n) (fun _ _ _ hi hm => inv_step hi hm) h

end ThreadPool
end UnixNetwork
