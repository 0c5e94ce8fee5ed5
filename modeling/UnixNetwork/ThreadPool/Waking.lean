import UnixNetwork.ThreadPool.Pool

/-!
# Who wakes up whom

`commit` notifies after it has given the mutex back, and what it notifies may be nobody:
a task is not forgotten all the same, since a worker that finds the queue empty keeps
the mutex until it sleeps, and a worker that was notified looks at the queue before it
sleeps again (`Heard`).

`~ThreadPool` stores `stop` without the mutex.  A worker that has found the predicate
false and is not asleep yet sees neither the store nor the notification; this is the only
way to sleep on (`Up`).

* `no_commit_slept_through`
* `destructor_misses_nobody`, `asleep_of_notify_all`
-/

namespace UnixNetwork
namespace ThreadPool

variable {n : ℕ}

/-- A worker that will look at the queue before it sleeps. -/
def WorkerPc.awake : WorkerPc → Bool
  | .block | .blocked | .returning | .leaving | .exited => false
  | _ => true

/-- A call of `commit` between its `emplace` and its `notify_one`. -/
def CommitPc.pending : CommitPc → Bool
  | .enqueued | .unlocked => true
  | _ => false

/-! ## Tasks -/

/-- As long as the pool runs, a task in the queue is someone's business. -/
def Heard (s : State n) : Prop :=
  s.stop = false → s.tasks ≠ [] →
    (∃ c, (s.commit c).pending = true) ∨ ∃ w, (s.worker w).awake = true

/-- A worker that goes to a place where it is awake. -/
theorem heard_goto {s : State n} {w : Fin n} {pc : WorkerPc} (h : pc.awake = true) :
    Heard (s.goto w pc) := fun _ _ => Or.inr ⟨w, by rw [goto_worker_self]; exact h⟩

theorem Heard.commitTo {s : State n} (h : Heard s) {c : ℕ} {pc : CommitPc}
    (hc : (s.commit c).pending = false) : Heard (s.commitTo c pc) := by
  intro hstop htasks
  rcases h hstop htasks with ⟨c', hc'⟩ | hw
  · have hne : c' ≠ c := by
      rintro rfl
      rw [hc] at hc'
      cases hc'
    exact Or.inl ⟨c', by rw [commitTo_commit_of_ne hne]; exact hc'⟩
  · exact Or.inr hw

/-- While the pool runs and has tasks, who does not sleep is awake. -/
theorem Inv.awake {s : State n} (hi : Inv s) (hstop : s.stop = false) (htasks : s.tasks ≠ [])
    {w : Fin n} (hw : s.worker w ≠ .blocked) : (s.worker w).awake = true := by
  have hok := hi.places w
  rw [hstop] at hok
  cases hpc : s.worker w with
  | block =>
    rw [hpc] at hok
    exact absurd hok htasks
  | blocked => exact absurd hpc hw
  | returning | leaving | exited =>
    rw [hpc] at hok
    cases hok
  | _ => rfl

theorem heard_step (hn : 0 < n) {s s' : State n} {l : Label n} (hi : Inv s) (h : Heard s)
    (hm : Moves s l s') : Heard s' := by
  -- once the pool stops there is nothing to show
  have hstopped : s.stop = true → ∀ t : State n, t.stop = s.stop → Heard t := by
    intro hstop t ht hstop'
    rw [ht, hstop] at hstop'
    cases hstop'
  cases hm with
  | test_stop _ hstop => exact hstopped hstop _ rfl
  | test_go _ _ => exact heard_goto rfl
  | lock _ _ => exact heard_goto rfl
  | pred_true _ _ => exact heard_goto rfl
  | pred_false _ _ hnil => exact fun _ htasks => absurd hnil htasks
  | @block w hw =>
    have hnil := hi.places w
    rw [hw] at hnil
    exact fun _ htasks => absurd hnil htasks
  | check_return _ hstop _ => exact hstopped hstop _ rfl
  | check_take _ _ => exact heard_goto rfl
  | take _ _ => exact heard_goto rfl
  | start _ => exact heard_goto rfl
  | finish _ => exact heard_goto rfl
  | unlock _ => exact heard_goto rfl
  | @returning w hw =>
    have hstop := hi.places w
    rw [hw] at hstop
    exact hstopped hstop _ rfl
  | @leaving w hw =>
    have hstop := hi.places w
    rw [hw] at hstop
    exact hstopped hstop _ rfl
  | spurious _ => exact heard_goto rfl
  | commit_refused hc _ => exact h.commitTo (by rw [hc]; rfl)
  | commit_made hc _ => exact h.commitTo (by rw [hc]; rfl)
  | @commit_lock c hc _ =>
    have h' : Heard { s with owner := some (.commit c) } := h
    exact h'.commitTo (by rw [hc]; rfl)
  | @commit_append c hc => exact fun _ _ => Or.inl ⟨c, by rw [commitTo_commit_self]; rfl⟩
  | @commit_unlock c hc => exact fun _ _ => Or.inl ⟨c, by rw [commitTo_commit_self]; rfl⟩
  | @notify c w _ _ =>
    refine fun _ _ => Or.inr ⟨w, ?_⟩
    show ((s.goto w .woken).worker w).awake = true
    rw [goto_worker_self]
    rfl
  | notify_nobody _ hnobody =>
    exact fun hstop htasks => Or.inr ⟨⟨0, hn⟩, hi.awake hstop htasks (hnobody _)⟩
  | stop _ => exact fun hstop => absurd hstop (Bool.false_ne_true ∘ Eq.symm)
  | notify_all hd => exact hstopped (hi.stopped (by rw [hd]; exact nofun)) _ rfl
  | join _ hd _ => exact hstopped (hi.stopped (by rw [hd]; exact nofun)) _ rfl
  | destroyed hd _ => exact hstopped (hi.stopped (by rw [hd]; exact nofun)) _ rfl

theorem heard_of_reachable (hn : 0 < n) {s : State n} (h : (pool n).Reachable s) : Heard s := by
  refine (invariant (P := fun s => Inv s ∧ Heard s) ⟨inv_start n, ?_⟩ ?_ h).2
  · exact fun _ htasks => absurd rfl htasks
  · exact fun s l s' hs hm => ⟨inv_step hs.1 hm, heard_step hn hs.1 hs.2 hm⟩

/-- **No commit is slept through.** -/
theorem no_commit_slept_through {threads : ℕ} (hthreads : 1 ≤ threads) (hmax : threads < maxNum)
    {s : State (createThreadpool threads)} (h : (pool (createThreadpool threads)).Reachable s)
    (hstop : s.stop = false) :
    ¬ (s.tasks ≠ [] ∧ (∀ w, s.worker w = .blocked) ∧
      ∀ c, s.commit c ≠ .enqueued ∧ s.commit c ≠ .unlocked) := by
  rintro ⟨htasks, hworkers, hcommits⟩
  have hn : 0 < createThreadpool threads := by
    rw [createThreadpool_eq, if_pos hmax]
    exact hthreads
  rcases heard_of_reachable hn h hstop htasks with ⟨c, hc⟩ | ⟨w, hw⟩
  · obtain ⟨henqueued, hunlocked⟩ := hcommits c
    cases hpc : s.commit c with
    | enqueued => exact henqueued hpc
    | unlocked => exact hunlocked hpc
    | _ =>
      rw [hpc] at hc
      cases hc
  · rw [hworkers w] at hw
    cases hw

theorem no_commit_slept_through_enqueued : ∃ s : State (createThreadpool 2), s.tasks = [7] ∧
    ¬ (s.tasks ≠ [] ∧ (∀ w, s.worker w = .blocked) ∧
      ∀ c, s.commit c ≠ .enqueued ∧ s.commit c ≠ .unlocked) := by
  exact ⟨_, rfl, no_commit_slept_through (by decide) (by decide)
    (reachable_of_labels (List.replicate 3 (.commit 7)) rfl) rfl⟩

/-! ## The destructor -/

/-- The destructor has executed `notify_all`. -/
def DtorPc.notified : DtorPc → Bool
  | .joining _ | .returned => true
  | _ => false

/-- When `notify_all` is executed, no worker has found the predicate false and is not
asleep yet. -/
def NoneFallingAsleep (s : State n) (l : Label n) (_ : State n) : Prop :=
  s.dtor = .stored → l = .dtor → ∀ w, s.worker w ≠ .block

/-- Once everybody is notified, nobody sleeps or is about to. -/
def Up (s : State n) : Prop :=
  s.dtor.notified = true → ∀ w, s.worker w ≠ .block ∧ s.worker w ≠ .blocked

/-- A worker that goes on. -/
theorem Up.moved {s s' : State n} (h : Up s) {w : Fin n} {pc : WorkerPc} (hdtor : s'.dtor = s.dtor)
    (hworker : s'.worker = Function.update s.worker w pc)
    (hpc : s.dtor.notified = true → pc ≠ .block ∧ pc ≠ .blocked) : Up s' := by
  intro hd w'
  rw [hdtor] at hd
  rw [hworker]
  by_cases hw : w' = w
  · rw [hw, Function.update_self]
    exact hpc hd
  · rw [Function.update_of_ne hw]
    exact h hd w'

theorem up_step {s s' : State n} {l : Label n} (hi : Inv s) (h : Up s) (hm : Moves s l s')
    (hnone : NoneFallingAsleep s l s') : Up s' := by
  have hstop : s.dtor.notified = true → s.stop = true := fun hd =>
    hi.stopped fun hidle => by
      rw [hidle] at hd
      cases hd
  cases hm with
  | pred_false _ hgo _ =>
    refine h.moved rfl rfl fun hd => ?_
    rw [hstop hd] at hgo
    cases hgo
  | block hw => exact h.moved rfl rfl fun hd => absurd hw (h hd _).1
  | test_stop _ _ | test_go _ _ | lock _ _ | pred_true _ _ | check_return _ _ _ | check_take _ _
  | take _ _ | start _ | finish _ | unlock _ | returning _ | leaving _ | spurious _
  | notify _ _ => exact h.moved rfl rfl fun _ => ⟨nofun, nofun⟩
  | stop _ => exact nofun
  | notify_all hd =>
    intro _ w
    have hw := hnone hd rfl w
    show (notifyAll s).worker w ≠ .block ∧ (notifyAll s).worker w ≠ .blocked
    rw [notifyAll_worker]
    split
    · exact ⟨nofun, nofun⟩
    · exact ⟨hw, ‹_›⟩
  | join _ hd _ => exact fun _ => h (by rw [hd]; rfl)
  | destroyed hd _ => exact fun _ => h (by rw [hd]; rfl)
  | commit_refused _ _ | commit_made _ _ | commit_lock _ _ | commit_append _ | commit_unlock _
  | notify_nobody _ _ => exact h

/-- **The destructor misses nobody** if nobody is falling asleep when it notifies. -/
theorem destructor_misses_nobody {s : State n}
    (h : ((pool n).restrict NoneFallingAsleep).Reachable s) (hd : s.dtor.notified = true)
    (w : Fin n) : s.worker w ≠ .blocked := by
  have hup : Inv s ∧ Up s := by
    refine TransitionSystem.Reachable.invariant (P := fun s => Inv s ∧ Up s) ?_ ?_ h
    · rintro s rfl
      exact ⟨inv_start n, nofun⟩
    · rintro s l s' ⟨hi, hs⟩ ⟨hstep, hnone⟩
      exact ⟨inv_step hi (moves_of_step hstep), up_step hi hs (moves_of_step hstep) hnone⟩
  exact (hup.2 hd w).2

/-- The destructor of a pool whose worker is asleep. -/
theorem destructor_misses_nobody_asleep : ∃ s : State 1, s.dtor.notified = true ∧
    s.worker 0 ≠ .blocked := by
  have hf : ∀ s l s', (if s.dtor = .stored then none else step s l) = some s' →
      ((pool 1).restrict NoneFallingAsleep).step s l s' := by
    intro s l s' h
    split at h
    · cases h
    · exact ⟨h, fun hd => absurd hd ‹_›⟩
  have hrun : [.worker 0, .worker 0, .worker 0, .worker 0, .dtor].foldlM
      (fun s l => if s.dtor = .stored then none else step s l) (start 1) = some _ := rfl
  have hstart : ((pool 1).restrict NoneFallingAsleep).Reachable (start 1) := .init rfl
  have hstored := hstart.follow hf hrun
  refine ⟨_, rfl, destructor_misses_nobody (.step hstored (l := .dtor) ⟨rfl, fun _ _ w => ?_⟩) rfl 0⟩
  obtain rfl : w = 0 := Subsingleton.elim _ _
  exact nofun

/-- It misses whoever is. -/
theorem asleep_of_notify_all {s : State n} (h : (pool n).Reachable s) (hd : s.dtor = .stored)
    {w : Fin n} (hw : s.worker w = .block) :
    ∃ s', (pool n).Reachable s' ∧ s'.dtor.notified = true ∧ s'.worker w = .blocked := by
  have hnotify : step s .dtor = some { notifyAll s with dtor := .joining 0 } := by
    rw [step, dtorStep, hd]
  have hblock : (notifyAll s).worker w = .block := by
    rw [notifyAll_worker, hw]
    rfl
  have hsleep : step { notifyAll s with dtor := .joining 0 } (.worker w) =
      some (({ notifyAll s with dtor := .joining 0 } : State n).release.goto w .blocked) := by
    rw [step, workerStep]
    dsimp only
    rw [hblock]
  exact ⟨_, .step (.step h hnotify) hsleep, rfl, goto_worker_self _ w _⟩

/-- A worker has found no task; `stop` is stored and everybody notified; then the worker
goes to sleep. -/
theorem destructor_misses_worker :
    ¬ ∀ s : State 1, (pool 1).Reachable s → s.dtor.notified = true → ∀ w, s.worker w ≠ .blocked := by
  intro h
  exact h _ (reachable_of_labels [.worker 0, .worker 0, .worker 0, .dtor, .dtor, .worker 0] rfl)
    rfl 0 rfl

end ThreadPool
end UnixNetwork
