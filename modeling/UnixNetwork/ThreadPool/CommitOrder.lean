import Mathlib.Data.List.Nodup
import UnixNetwork.ThreadPool.Pool

/-!
# Tasks in the order of their commits

A worker runs its task inside the scope of `lock`, so the pool works off its tasks one
after the other: what was appended is what is finished, then what the owner of the
mutex has in its hand, then what is in the queue (`Order`).

* `order_of_reachable`, `commits_of_reachable`: this holds in all runs, and each call of
  `commit` appends once.
* `finished_in_commit_order`: what follows for the order of execution.
-/

namespace UnixNetwork
namespace ThreadPool

variable {n : ℕ}

/-- What a worker can have in its hand. -/
inductive Hand where
  | empty
  | taken (task : ℕ)
  | running (task : ℕ)

/-- The task in a hand. -/
def Hand.tasks : Hand → List ℕ
  | .empty => []
  | .taken task | .running task => [task]

/-- The task that is being executed. -/
def Hand.executing : Hand → List ℕ
  | .running task => [task]
  | _ => []

/-- What a worker has in its hand. -/
def WorkerPc.hand : WorkerPc → Hand
  | .taken task => .taken task
  | .running task => .running task
  | _ => .empty

/-- What the worker that has the mutex has in its hand. -/
def State.hand (s : State n) : Hand :=
  match s.owner with
  | some (.worker w) => (s.worker w).hand
  | _ => .empty

section Hand

variable {s s' : State n} {w : Fin n} {pc : WorkerPc}

theorem hand_of_worker (h : s.owner = some (.worker w)) : s.hand = (s.worker w).hand := by
  rw [State.hand, h]

theorem hand_of_commit {c : ℕ} (h : s.owner = some (.commit c)) : s.hand = .empty := by
  rw [State.hand, h]

theorem hand_of_none (h : s.owner = none) : s.hand = .empty := by
  rw [State.hand, h]

theorem hand_congr (howner : s'.owner = s.owner)
    (hworker : ∀ w, (s'.worker w).hand = (s.worker w).hand) : s'.hand = s.hand := by
  rw [State.hand, State.hand, howner]
  rcases s.owner with _ | ⟨w | c⟩
  · rfl
  · exact hworker w
  · rfl

theorem hand_goto (h : pc.hand = (s.worker w).hand) : (s.goto w pc).hand = s.hand := by
  refine hand_congr rfl fun w' => ?_
  by_cases hw : w' = w
  · rw [hw, goto_worker_self, h]
  · rw [goto_worker_of_ne hw]

/-- Who just got the mutex has nothing in its hand yet, -/
theorem hand_goto_in (howner : s.owner = none) (hpc : pc.hand = .empty) :
    ({ s with owner := some (.worker w) }.goto w pc).hand = s.hand := by
  have howner' : ({ s with owner := some (.worker w) }.goto w pc).owner = some (.worker w) := rfl
  rw [hand_of_worker howner', goto_worker_self, hpc, hand_of_none howner]

/-- and who gives it back has nothing any more. -/
theorem hand_goto_out (howner : s.owner = some (.worker w)) (hw : (s.worker w).hand = .empty) :
    (s.release.goto w pc).hand = s.hand := by
  rw [hand_of_none rfl, hand_of_worker howner, hw]

end Hand

/-! ## One after the other -/

/-- What was appended is finished, in someone's hand or in the queue, in this order. -/
structure Order (s : State n) : Prop where
  appended : s.appended = s.finished ++ s.hand.tasks ++ s.tasks
  started : s.started = s.finished ++ s.hand.executing

/-- A step that leaves hands and lists alone. -/
theorem Order.keep {s s' : State n} (h : Order s) (happended : s'.appended = s.appended)
    (hstarted : s'.started = s.started) (hfinished : s'.finished = s.finished)
    (htasks : s'.tasks = s.tasks) (hhand : s'.hand = s.hand) : Order s' := by
  constructor
  · rw [happended, hfinished, htasks, hhand]
    exact h.appended
  · rw [hstarted, hfinished, hhand]
    exact h.started

/-- A step of a worker that keeps the mutex. -/
theorem Order.of_worker {s : State n} {w : Fin n} {pc : WorkerPc}
    (howner : s.owner = some (.worker w)) (hw : s.worker w = pc)
    (happended : s.appended = s.finished ++ pc.hand.tasks ++ s.tasks)
    (hstarted : s.started = s.finished ++ pc.hand.executing) : Order s := by
  constructor
  · rw [hand_of_worker howner, hw]
    exact happended
  · rw [hand_of_worker howner, hw]
    exact hstarted

/-- What it says when a worker has the mutex. -/
theorem Order.worker {s : State n} (h : Order s) {w : Fin n} {pc : WorkerPc}
    (howner : s.owner = some (.worker w)) (hw : s.worker w = pc) :
    s.appended = s.finished ++ pc.hand.tasks ++ s.tasks ∧
      s.started = s.finished ++ pc.hand.executing := by
  obtain ⟨happended, hstarted⟩ := h
  rw [hand_of_worker howner, hw] at happended hstarted
  exact ⟨happended, hstarted⟩

theorem order_start (n : ℕ) : Order (start n) := ⟨rfl, rfl⟩

theorem order_step {s s' : State n} {l : Label n} (hi : Inv s) (h : Order s) (hm : Moves s l s') :
    Order s' := by
  cases hm with
  | test_stop hw _ => exact h.keep rfl rfl rfl rfl (hand_goto (by rw [hw]; rfl))
  | test_go hw _ => exact h.keep rfl rfl rfl rfl (hand_goto (by rw [hw]; rfl))
  | lock _ howner => exact h.keep rfl rfl rfl rfl (hand_goto_in howner rfl)
  | pred_true hw _ => exact h.keep rfl rfl rfl rfl (hand_goto (by rw [hw]; rfl))
  | pred_false hw _ _ => exact h.keep rfl rfl rfl rfl (hand_goto (by rw [hw]; rfl))
  | block hw =>
    have howner := hi.owner_of_worker (by rw [hw]; rfl)
    exact h.keep rfl rfl rfl rfl (hand_goto_out howner (by rw [hw]; rfl))
  | check_return hw _ _ => exact h.keep rfl rfl rfl rfl (hand_goto (by rw [hw]; rfl))
  | check_take hw _ => exact h.keep rfl rfl rfl rfl (hand_goto (by rw [hw]; rfl))
  | @take w task tasks hw htasks =>
    have howner : s.owner = some (.worker w) := hi.owner_of_worker (by rw [hw]; rfl)
    obtain ⟨happended, hstarted⟩ := h.worker howner hw
    refine .of_worker howner (goto_worker_self _ w _) ?_ hstarted
    show s.appended = s.finished ++ [task] ++ tasks
    rw [happended, htasks, List.append_assoc, List.append_assoc]
    rfl
  | @start w task hw =>
    have howner : s.owner = some (.worker w) := hi.owner_of_worker (by rw [hw]; rfl)
    obtain ⟨happended, hstarted⟩ := h.worker howner hw
    refine .of_worker howner (goto_worker_self _ w _) happended ?_
    show s.started ++ [task] = s.finished ++ [task]
    rw [hstarted]
    exact congrArg (· ++ [task]) (List.append_nil _)
  | @finish w task hw =>
    have howner : s.owner = some (.worker w) := hi.owner_of_worker (by rw [hw]; rfl)
    obtain ⟨happended, hstarted⟩ := h.worker howner hw
    refine .of_worker howner (goto_worker_self _ w _) ?_ ?_
    · show s.appended = s.finished ++ [task] ++ [] ++ s.tasks
      rw [happended, List.append_nil]
      rfl
    · show s.started = s.finished ++ [task] ++ []
      rw [hstarted, List.append_nil]
      rfl
  | unlock hw =>
    have howner := hi.owner_of_worker (by rw [hw]; rfl)
    exact h.keep rfl rfl rfl rfl (hand_goto_out howner (by rw [hw]; rfl))
  | returning hw =>
    have howner := hi.owner_of_worker (by rw [hw]; rfl)
    exact h.keep rfl rfl rfl rfl (hand_goto_out howner (by rw [hw]; rfl))
  | leaving hw => exact h.keep rfl rfl rfl rfl (hand_goto (by rw [hw]; rfl))
  | spurious hw => exact h.keep rfl rfl rfl rfl (hand_goto (by rw [hw]; rfl))
  | commit_lock _ howner =>
    exact h.keep rfl rfl rfl rfl ((hand_of_commit rfl).trans (hand_of_none howner).symm)
  | @commit_append c hc =>
    have howner : s.owner = some (.commit c) := hi.owner_of_commit (by rw [hc]; rfl)
    constructor
    · show s.appended ++ [c] = s.finished ++ s.hand.tasks ++ (s.tasks ++ [c])
      rw [h.appended, List.append_assoc]
    · exact h.started
  | commit_unlock hc =>
    have howner := hi.owner_of_commit (by rw [hc]; rfl)
    exact h.keep rfl rfl rfl rfl ((hand_of_none rfl).trans (hand_of_commit howner).symm)
  | @notify c w _ hw =>
    have hwoken : (s.goto w .woken).hand = s.hand := hand_goto (by rw [hw]; rfl)
    exact h.keep rfl rfl rfl rfl hwoken
  | notify_all _ =>
    refine h.keep rfl rfl rfl rfl (hand_congr rfl fun w => ?_)
    show ((notifyAll s).worker w).hand = (s.worker w).hand
    rw [notifyAll_worker]
    split
    · rename_i hw
      rw [hw]
      rfl
    · rfl
  | commit_refused _ _ | commit_made _ _ | notify_nobody _ _ | stop _ | join _ _ _
  | destroyed _ _ => exact h.keep rfl rfl rfl rfl rfl

theorem order_of_reachable {s : State n} (h : (pool n).Reachable s) : Order s := by
  refine (invariant (P := fun s => Inv s ∧ Order s) ⟨inv_start n, order_start n⟩ ?_ h).2
  exact fun s l s' hs hm => ⟨inv_step hs.1 hm, order_step hs.1 hs.2 hm⟩

/-! ## Each call appends once -/

/-- The places of a call of `commit` that has appended its task. -/
def CommitPc.appended : CommitPc → Bool
  | .enqueued | .unlocked | .returned => true
  | _ => false

/-- Which tasks were appended. -/
structure Commits (s : State n) : Prop where
  nodup : s.appended.Nodup
  mem : ∀ c, c ∈ s.appended ↔ (s.commit c).appended = true

theorem Commits.commitTo {s : State n} {c : ℕ} {pc : CommitPc} (h : Commits s)
    (hpc : pc.appended = (s.commit c).appended) : Commits (s.commitTo c pc) := by
  refine ⟨h.nodup, fun c' => ?_⟩
  by_cases hc : c' = c
  · rw [hc, commitTo_commit_self, hpc]
    exact h.mem c
  · rw [commitTo_commit_of_ne hc]
    exact h.mem c'

theorem commits_start (n : ℕ) : Commits (start n) := by
  refine ⟨List.nodup_nil, fun c => ?_⟩
  simp [start, CommitPc.appended]

theorem commits_step {s s' : State n} {l : Label n} (h : Commits s) (hm : Moves s l s') :
    Commits s' := by
  cases hm with
  | commit_refused hc _ => exact h.commitTo (by rw [hc]; rfl)
  | commit_made hc _ => exact h.commitTo (by rw [hc]; rfl)
  | commit_lock hc _ => exact Commits.commitTo ⟨h.nodup, h.mem⟩ (by rw [hc]; rfl)
  | @commit_append c hc =>
    have hnotMem : c ∉ s.appended := by
      rw [h.mem, hc]
      exact Bool.false_ne_true
    refine ⟨List.nodup_append.mpr ⟨h.nodup, List.nodup_singleton c, ?_⟩, fun c' => ?_⟩
    · rintro a ha b hb rfl
      rw [List.mem_singleton.mp hb] at ha
      exact hnotMem ha
    · show c' ∈ s.appended ++ [c] ↔ ((s.commitTo c .enqueued).commit c').appended = true
      rw [List.mem_append, List.mem_singleton]
      by_cases hc' : c' = c
      · rw [hc', commitTo_commit_self]
        exact ⟨fun _ => rfl, fun _ => Or.inr rfl⟩
      · rw [commitTo_commit_of_ne hc', ← h.mem]
        exact or_iff_left hc'
  | @commit_unlock c hc =>
    have hc' : s.release.commit c = .enqueued := hc
    exact Commits.commitTo ⟨h.nodup, h.mem⟩ (by rw [hc']; rfl)
  | @notify c w hc _ =>
    have hc' : (s.goto w .woken).commit c = .unlocked := hc
    exact Commits.commitTo ⟨h.nodup, h.mem⟩ (by rw [hc']; rfl)
  | notify_nobody hc _ => exact h.commitTo (by rw [hc]; rfl)
  | _ => exact ⟨h.nodup, h.mem⟩

theorem commits_of_reachable {s : State n} (h : (pool n).Reachable s) : Commits s :=
  invariant (commits_start n) (fun _ _ _ hs hm => commits_step hs hm) h

/-! ## The order of execution -/

/-- A worker that executes a task has it in its hand. -/
theorem hand_of_running {s : State n} (hi : Inv s) {w : Fin n} {task : ℕ}
    (hw : s.worker w = .running task) : s.owner = some (.worker w) ∧ s.hand = .running task := by
  have howner : s.owner = some (.worker w) := hi.owner_of_worker (by rw [hw]; rfl)
  refine ⟨howner, ?_⟩
  rw [hand_of_worker howner, hw]
  rfl

/-- **Tasks are executed in the order of their commits, one at a time.** -/
theorem finished_in_commit_order {s : State n} (h : (pool n).Reachable s) :
    s.finished <+: s.appended ∧ s.started.Nodup ∧
      (∀ w w' task task', s.worker w = .running task → s.worker w' = .running task' → w = w') ∧
      ∀ w task, s.worker w = .running task → s.finished ++ [task] <+: s.appended := by
  have hi := inv_of_reachable h
  obtain ⟨happended, hstarted⟩ := order_of_reachable h
  have hprefix : s.finished ++ s.hand.tasks <+: s.appended := ⟨s.tasks, happended.symm⟩
  refine ⟨(List.prefix_append _ _).trans hprefix, ?_, ?_, ?_⟩
  · have hexec : s.hand.executing <+: s.hand.tasks := by
      cases s.hand with
      | empty => exact List.prefix_rfl
      | taken task => exact List.nil_prefix
      | running task => exact List.prefix_rfl
    have hle : s.started <+: s.appended := by
      rw [hstarted]
      exact ((List.prefix_append_right_inj _).mpr hexec).trans hprefix
    exact (commits_of_reachable h).nodup.sublist hle.sublist
  · intro w w' task task' hw hw'
    have howner := (hand_of_running hi hw).1
    rw [(hand_of_running hi hw').1] at howner
    cases howner
    rfl
  · intro w task hw
    rw [(hand_of_running hi hw).2] at hprefix
    exact hprefix

/-- Two tasks are in the pool, and one of the two workers executes the first. -/
theorem finished_in_commit_order_first : ∃ s : State 2,
    s.appended = [4, 9] ∧ s.worker 1 = .running 4 ∧
      s.finished <+: s.appended ∧ s.started.Nodup ∧
      (∀ w w' task task', s.worker w = .running task → s.worker w' = .running task' → w = w') ∧
      ∀ w task, s.worker w = .running task → s.finished ++ [task] <+: s.appended := by
  exact ⟨_, rfl, rfl, finished_in_commit_order (reachable_of_labels (List.replicate 4 (.commit 4) ++
    List.replicate 4 (.commit 9) ++ List.replicate 6 (.worker 1)) rfl)⟩

end ThreadPool
end UnixNetwork
