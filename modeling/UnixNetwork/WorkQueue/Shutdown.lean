import UnixNetwork.WorkQueue.Queue

/-!
# Shutting the work queue down

Both `break`s of `worker_function` lead behind the loop with `jobs_mutex` still taken,
and nothing there gives it back.  So a worker that has terminated is inside the critical
section for good (`Inside`): it owns the mutex (`owned_of_exited`), at most one worker
ever terminates, and the queue is dead from then on.

* `shutdown_lets_workers_leave`: every worker can leave, as long as no worker comes to the
  test of its flag and finds it set.
* `exited_of_check`: the first that does keeps the others from it.
-/

namespace UnixNetwork
namespace WorkQueue

variable {n : ℕ}

/-- The places where a worker has `jobs_mutex`: behind the loop as well. -/
def WorkerPc.inside : WorkerPc → Bool
  | .test | .empty | .wait | .check | .remove | .unlock _ | .leaving | .exited => true
  | _ => false

/-- The places where a call of `workqueue_add_job` has it. -/
def AddPc.inside : AddPc → Bool
  | .holding | .listed | .signalled => true
  | _ => false

/-- The places where `workqueue_shutdown` has it. -/
def ShutdownPc.inside : ShutdownPc n → Bool
  | .holding | .cleared | .broadcast => true
  | _ => false

/-- Who is at such a place. -/
def Inside (s : State n) : Thread n → Prop
  | .worker w => (s.worker w).inside = true
  | .add job => (s.add job).inside = true
  | .shutdown => s.shutdown.inside = true

@[simp] theorem goto_worker_self (s : State n) (w : Fin n) (pc : WorkerPc) :
    (s.goto w pc).worker w = pc := Function.update_self ..

@[simp] theorem addTo_add_self (s : State n) (job : ℕ) (pc : AddPc) :
    (s.addTo job pc).add job = pc := Function.update_self ..

section Moved

variable {s s' : State n}

/-- A worker that moves leaves the others where they are. -/
theorem inside_worker {w : Fin n} {pc : WorkerPc} (hworker : s'.worker = Function.update s.worker w pc)
    (hadd : s'.add = s.add) (hshutdown : s'.shutdown = s.shutdown) (t : Thread n)
    (ht : t ≠ .worker w) : Inside s' t ↔ Inside s t := by
  cases t with
  | worker w' =>
    have hne : w' ≠ w := fun heq => ht (congrArg Thread.worker heq)
    rw [Inside, Inside, hworker, Function.update_of_ne hne]
  | add job => rw [Inside, Inside, hadd]
  | shutdown => rw [Inside, Inside, hshutdown]

theorem inside_add {job : ℕ} {pc : AddPc} (hadd : s'.add = Function.update s.add job pc)
    (hworker : s'.worker = s.worker) (hshutdown : s'.shutdown = s.shutdown) (t : Thread n)
    (ht : t ≠ .add job) : Inside s' t ↔ Inside s t := by
  cases t with
  | worker w => rw [Inside, Inside, hworker]
  | add job' =>
    have hne : job' ≠ job := fun heq => ht (congrArg Thread.add heq)
    rw [Inside, Inside, hadd, Function.update_of_ne hne]
  | shutdown => rw [Inside, Inside, hshutdown]

theorem inside_shutdown (hworker : s'.worker = s.worker) (hadd : s'.add = s.add) (t : Thread n)
    (ht : t ≠ .shutdown) : Inside s' t ↔ Inside s t := by
  cases t with
  | worker w => rw [Inside, Inside, hworker]
  | add job => rw [Inside, Inside, hadd]
  | shutdown => exact absurd rfl ht

/-- Waking up changes nothing about who is inside. -/
theorem inside_condBroadcast (s : State n) (w : Fin n) :
    ((condBroadcast s).worker w).inside = (s.worker w).inside := by
  show (if s.worker w = .blocked then WorkerPc.woken else s.worker w).inside = _
  split
  · rename_i hw
    rw [hw]
    rfl
  · rfl

end Moved

section Owned

variable {s s' : State n} (h : Owned s.owner (Inside s))
include h

/-- A worker moves, and has the mutex just if it had it before. -/
theorem owned_worker_stay {w : Fin n} {pc : WorkerPc} (howner : s'.owner = s.owner)
    (hworker : s'.worker = Function.update s.worker w pc) (hadd : s'.add = s.add)
    (hshutdown : s'.shutdown = s.shutdown) (hpc : pc.inside = (s.worker w).inside) :
    Owned s'.owner (Inside s') := by
  rw [howner]
  refine h.stay_at (inside_worker hworker hadd hshutdown) ?_
  rw [Inside, Inside, hworker, Function.update_self, hpc]

/-- A worker gives it back. -/
theorem owned_worker_out {w : Fin n} {pc : WorkerPc} (howner : s'.owner = none)
    (hworker : s'.worker = Function.update s.worker w pc) (hadd : s'.add = s.add)
    (hshutdown : s'.shutdown = s.shutdown) (hw : (s.worker w).inside = true)
    (hpc : pc.inside = false) : Owned s'.owner (Inside s') := by
  have hin : Inside s (.worker w) := hw
  rw [howner]
  refine h.release hin (inside_worker hworker hadd hshutdown) ?_
  rw [Inside, hworker, Function.update_self, hpc]
  exact Bool.false_ne_true

/-- The same for `workqueue_add_job`. -/
theorem owned_add_stay {job : ℕ} {pc : AddPc} (howner : s'.owner = s.owner)
    (hadd : s'.add = Function.update s.add job pc) (hworker : s'.worker = s.worker)
    (hshutdown : s'.shutdown = s.shutdown) (hpc : pc.inside = (s.add job).inside) :
    Owned s'.owner (Inside s') := by
  rw [howner]
  refine h.stay_at (inside_add hadd hworker hshutdown) ?_
  rw [Inside, Inside, hadd, Function.update_self, hpc]

end Owned

theorem owned_start (n : ℕ) (heap : Heap) :
    Owned (start n heap).owner (Inside (start n heap)) := by
  intro t
  cases t <;> exact ⟨nofun, nofun⟩

/-- **Who has the mutex** is who is where it is held. -/
theorem owned_step {s s' : State n} {l : Label n} (h : Owned s.owner (Inside s))
    (hm : Moves s l s') : Owned s'.owner (Inside s') := by
  cases hm with
  | @lock w _ howner =>
    refine h.acquire howner (inside_worker rfl rfl rfl) ?_
    rw [Inside, goto_worker_self]
    rfl
  | test_empty hw _ | test_jobs hw _ | empty_terminate hw _ | empty_wait hw _
  | check_terminate hw _ | check_go hw _ | remove_none hw _ | remove hw _ | ran hw | leaving hw
  | spurious hw => exact owned_worker_stay h rfl rfl rfl rfl (by rw [hw]; rfl)
  | wait hw | unlock_none hw | unlock hw =>
    exact owned_worker_out h rfl rfl rfl rfl (by rw [hw]; rfl) rfl
  | @add_lock job _ howner =>
    refine h.acquire howner (inside_add rfl rfl rfl) ?_
    rw [Inside, addTo_add_self]
    rfl
  | add_list hj => exact owned_add_stay h rfl rfl rfl rfl (by rw [hj]; rfl)
  | @signal job w hj hw =>
    have hwoken : Owned (s.goto w .woken).owner (Inside (s.goto w .woken)) :=
      owned_worker_stay h rfl rfl rfl rfl (by rw [hw]; rfl)
    have hjob : (s.goto w .woken).add job = _ := hj
    exact owned_add_stay hwoken rfl rfl rfl rfl (by rw [hjob]; rfl)
  | signal_nobody hj _ => exact owned_add_stay h rfl rfl rfl rfl (by rw [hj]; rfl)
  | @add_unlock job hj =>
    have hin : Inside s (.add job) := by
      rw [Inside, hj]
      rfl
    refine h.release hin (inside_add rfl rfl rfl) ?_
    rw [Inside, addTo_add_self]
    exact Bool.false_ne_true
  | shutdown_begin hd | flag hd | clear hd =>
    refine h.stay_at (inside_shutdown rfl rfl) ?_
    rw [Inside, Inside, hd]
    exact Iff.rfl
  | shutdown_lock _ howner => exact h.acquire howner (inside_shutdown rfl rfl) rfl
  | broadcast hd =>
    refine h.stay fun t => ?_
    cases t with
    | worker w =>
      show ((condBroadcast s).worker w).inside = true ↔ (s.worker w).inside = true
      rw [inside_condBroadcast]
    | add job => exact Iff.rfl
    | shutdown =>
      rw [Inside, Inside, hd]
      exact Iff.rfl
  | shutdown_unlock hd =>
    have hin : Inside s .shutdown := by
      rw [Inside, hd]
      rfl
    exact h.release hin (inside_shutdown rfl rfl) nofun

theorem owned_of_reachable {heap : Heap} {s : State n} (h : (queue n heap).Reachable s) :
    Owned s.owner (Inside s) :=
  invariant (owned_start n heap) (fun _ _ _ hs hm => owned_step hs hm) h

/-! ## What the shutdown comes to -/

/-- No worker comes to `if (worker->terminate) break;` behind the inner loop and finds its
flag set. -/
def FlagUnseen (s : State n) (l : Label n) (_ : State n) : Prop :=
  ∀ w, l = .worker w → s.worker w = .check → s.terminate w = false

/-- Nobody is behind the loop. -/
def AllIn (s : State n) : Prop := ∀ w, s.worker w ≠ .leaving ∧ s.worker w ≠ .exited

theorem AllIn.moved {s s' : State n} (h : AllIn s) {w : Fin n} {pc : WorkerPc}
    (hworker : s'.worker = Function.update s.worker w pc) (hpc : pc ≠ .leaving ∧ pc ≠ .exited) :
    AllIn s' := by
  intro w'
  rw [hworker]
  by_cases hw : w' = w
  · rw [hw, Function.update_self]
    exact hpc
  · rw [Function.update_of_ne hw]
    exact h w'

theorem allIn_step {s s' : State n} {l : Label n} (h : AllIn s) (hm : Moves s l s')
    (hunseen : FlagUnseen s l s') : AllIn s' := by
  cases hm with
  | @check_terminate w hw hflag =>
    rw [hunseen w rfl hw] at hflag
    cases hflag
  | @leaving w hw => exact absurd hw (h w).1
  | lock _ _ | test_empty _ _ | test_jobs _ _ | empty_terminate _ _ | empty_wait _ _ | wait _
  | check_go _ _ | remove_none _ _ | remove _ _ | unlock_none _ | unlock _ | ran _ | spurious _
  | signal _ _ => exact h.moved rfl ⟨nofun, nofun⟩
  | broadcast _ =>
    intro w
    show (if s.worker w = .blocked then WorkerPc.woken else s.worker w) ≠ .leaving ∧
      (if s.worker w = .blocked then WorkerPc.woken else s.worker w) ≠ .exited
    split
    · exact ⟨nofun, nofun⟩
    · exact h w
  | add_lock _ _ | add_list _ | signal_nobody _ _ | add_unlock _ | shutdown_begin _ | flag _
  | shutdown_lock _ _ | clear _ | shutdown_unlock _ => exact h

/-- **No terminated worker owns the mutex** in a run in which no worker sees its flag. -/
theorem shutdown_lets_workers_leave {heap : Heap} {s : State n}
    (h : ((queue n heap).restrict FlagUnseen).Reachable s) (w : Fin n) :
    ¬ (s.worker w = .exited ∧ s.owner = some (.worker w)) := by
  have hall : AllIn s := by
    refine TransitionSystem.Reachable.invariant (P := AllIn) ?_ ?_ h
    · rintro s rfl w
      exact ⟨nofun, nofun⟩
    · rintro s l s' hs ⟨hstep, hunseen⟩
      exact allIn_step hs (moves_of_step hstep) hunseen
  exact fun hboth => (hall w).2 hboth.1

/-- A step from a state in which no worker is about to see its flag. -/
def unseenStep (s : State n) (l : Label n) : Option (State n) :=
  if ∀ w, s.worker w = .check → s.terminate w = false then step s l else none

theorem restrict_of_unseenStep {heap : Heap} (s : State n) (l : Label n) (s' : State n)
    (h : unseenStep s l = some s') : ((queue n heap).restrict FlagUnseen).step s l s' := by
  unfold unseenStep at h
  split at h
  · rename_i hall
    exact ⟨h, fun w _ => hall w⟩
  · cases h

/-- Both workers sleep, and wake up when the shutdown is through; none has looked yet. -/
theorem shutdown_lets_workers_leave_woken : ∃ s : State 2, s.shutdown = .returned ∧
    s.worker 0 = .woken ∧ ¬ (s.worker 0 = .exited ∧ s.owner = some (.worker 0)) := by
  have hrun : (List.replicate 4 (Label.worker 0) ++ List.replicate 4 (Label.worker 1) ++
      List.replicate 7 Label.shutdown).foldlM unseenStep (start 2 fun _ => ⟨none, none⟩) =
    some _ := rfl
  have hstart : ((queue 2 fun _ => ⟨none, none⟩).restrict FlagUnseen).Reachable
    (start 2 fun _ => ⟨none, none⟩) := .init rfl
  have hreach := hstart.follow restrict_of_unseenStep hrun
  exact ⟨_, rfl, rfl, shutdown_lets_workers_leave hreach 0⟩

/-- A terminated worker owns the mutex, whatever else happens. -/
theorem owner_of_exited {heap : Heap} {s : State n} (h : (queue n heap).Reachable s) {w : Fin n}
    (hw : s.worker w = .exited) : s.owner = some (.worker w) := by
  refine (owned_of_reachable h (.worker w)).mpr ?_
  rw [Inside, hw]
  rfl

/-- A worker that sees its flag terminates, and then owns the mutex. -/
theorem exited_of_check {heap : Heap} {s : State n} (h : (queue n heap).Reachable s) {w : Fin n}
    (hw : s.worker w = .check) (hflag : s.terminate w = true) :
    ∃ s', (queue n heap).Reachable s' ∧ s'.worker w = .exited ∧ s'.owner = some (.worker w) := by
  have hleave : step s (.worker w) = some (s.goto w .leaving) := by
    rw [step, workerStep, hw]
    dsimp only
    rw [hflag, if_pos rfl]
  have hexit : step (s.goto w .leaving) (.worker w) = some ((s.goto w .leaving).goto w .exited) := by
    rw [step, workerStep, goto_worker_self]
  have hreach : (queue n heap).Reachable ((s.goto w .leaving).goto w .exited) :=
    .step (.step h hleave) hexit
  exact ⟨_, hreach, goto_worker_self _ w _, owner_of_exited hreach (goto_worker_self _ w _)⟩

/-- Two workers sleep until the shutdown is through.  One wakes up, sees its flag and
terminates; the other waits for the mutex from then on. -/
theorem shutdown_leaves_mutex_owned : ¬ ∀ n heap (s : State n), (queue n heap).Reachable s →
    ∀ w, ¬ (s.worker w = .exited ∧ s.owner = some (.worker w)) := by
  intro h
  exact h 2 (fun _ => ⟨none, none⟩) _ (reachable_of_labels (List.replicate 4 (.worker 0) ++
    List.replicate 4 (.worker 1) ++ List.replicate 7 .shutdown ++ List.replicate 5 (.worker 0)) rfl)
    0 ⟨rfl, rfl⟩

end WorkQueue
end UnixNetwork
