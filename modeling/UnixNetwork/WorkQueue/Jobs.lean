import Mathlib.Data.List.Nodup
import UnixNetwork.WorkQueue.Queue

/-!
# Each job is handled once

`LL_ADD` leaves the `prev` of the old front alone, so the list of waiting jobs is not
doubly linked; but no job in it has anything behind `prev`, and workers only take its
front.  So it is a stack (`Links.Stack`), and `LL_REMOVE` pops it.

* `waiting`: the jobs that were added and not handed out, the last one first.
* `Served`: the list in the heap is always these.
* `stack_step`: what a step does to them.
* `jobs_handled_once`
-/

namespace UnixNetwork
namespace WorkQueue

open Links

variable {n : ℕ}

/-! ## The macros -/

theorem llAdd_eq (item : ℕ) (heap : Heap) (list : Option ℕ) :
    llAdd item heap list = (Function.update heap item ⟨none, list⟩, some item) := by
  rw [llAdd]
  dsimp only
  rw [Function.update_idem, Function.update_self]

/-- A store to one `prev`. -/
theorem update_prev (heap : Heap) (q : ℕ) (p : Option ℕ) (b : ℕ) :
    (Function.update heap q { heap q with prev := p } b).next = (heap b).next ∧
      (p = none → (heap b).prev = none →
        (Function.update heap q { heap q with prev := p } b).prev = none) := by
  by_cases hb : b = q
  · rw [hb, Function.update_self]
    exact ⟨rfl, fun hp _ => hp⟩
  · rw [Function.update_of_ne hb]
    exact ⟨rfl, fun _ h => h⟩

/-- `LL_REMOVE` at the front of a stack. -/
theorem llRemove_front {heap : Heap} {job : ℕ} {jobs : List ℕ}
    (h : Stack heap (some job) (job :: jobs)) (hnodup : (job :: jobs).Nodup) :
    Stack (llRemove job heap (some job)).1 (llRemove job heap (some job)).2 jobs := by
  have hprev : (heap job).prev = none := h.prev job List.mem_cons_self
  -- the heap after the two stores to neighbours, of which the first is never made
  obtain ⟨mid, hmid, hnexts, hprevs⟩ : ∃ mid : Heap,
      llRemove job heap (some job) = (Function.update mid job ⟨none, none⟩, (heap job).next) ∧
      (∀ b, (mid b).next = (heap b).next) ∧ ∀ b, (heap b).prev = none → (mid b).prev = none := by
    rw [llRemove, hprev]
    dsimp only
    rw [if_pos rfl, hprev]
    cases hnext : (heap job).next with
    | none => exact ⟨heap, by rw [hnext], fun _ => rfl, fun _ hb => hb⟩
    | some q =>
      refine ⟨Function.update heap q { heap q with prev := none }, ?_,
        fun b => (update_prev heap q none b).1, fun b => (update_prev heap q none b).2 rfl⟩
      dsimp only
      rw [(update_prev heap q none job).1, hnext]
  have hother : ∀ b ∈ jobs, Function.update mid job ⟨none, none⟩ b = mid b := by
    intro b hb
    refine Function.update_of_ne ?_ ..
    rintro rfl
    exact (List.nodup_cons.mp hnodup).1 hb
  rw [hmid]
  dsimp only
  refine h.pop (fun b hb => ?_) fun b hb => ?_
  · rw [hother b hb, hnexts]
  · rw [hother b hb]
    exact hprevs b (h.prev b (List.mem_cons_of_mem _ hb))

/-! ## The jobs that wait -/

/-- The jobs that were added and not handed out, the last one first. -/
def waiting (s : State n) : List ℕ :=
  s.added.reverse.filter fun job => job ∉ s.handed.map Prod.snd

theorem mem_waiting {s : State n} {job : ℕ} :
    job ∈ waiting s ↔ job ∈ s.added ∧ job ∉ s.handed.map Prod.snd := by
  rw [waiting, List.mem_filter, List.mem_reverse, decide_eq_true_iff]

/-- The places of a call of `workqueue_add_job` that has put its job into the list. -/
def AddPc.added : AddPc → Bool
  | .listed | .signalled | .returned => true
  | _ => false

/-- Each call adds its job once. -/
structure Added (s : State n) : Prop where
  nodup : s.added.Nodup
  mem : ∀ job, job ∈ s.added ↔ (s.add job).added = true

/-- The jobs handed out, and the others in the list. -/
structure Served (s : State n) : Prop where
  handed_nodup : (s.handed.map Prod.snd).Nodup
  handed_added : s.handed.map Prod.snd ⊆ s.added
  stack : Stack s.heap s.waitingJobs (waiting s)

theorem Added.waiting_nodup {s : State n} (h : Added s) : (waiting s).Nodup :=
  (List.nodup_reverse.mpr h.nodup).filter _

/-! ## Adding -/

/-- A call that goes on without putting its job into the list. -/
theorem added_update {add : ℕ → AddPc} {job : ℕ} {pc pc' : AddPc} (hjob : add job = pc)
    (hpc : pc'.added = pc.added) (job' : ℕ) :
    (Function.update add job pc' job').added = (add job').added := by
  by_cases hj : job' = job
  · rw [hj, Function.update_self, hjob, hpc]
  · rw [Function.update_of_ne hj]

theorem Added.keep {s s' : State n} (h : Added s) (hadded : s'.added = s.added)
    (hadd : ∀ job, (s'.add job).added = (s.add job).added) : Added s' := by
  refine ⟨by rw [hadded]; exact h.nodup, fun job => ?_⟩
  rw [hadded, hadd]
  exact h.mem job

/-- A job that is being added is new. -/
theorem Added.notMem {s : State n} (h : Added s) {job : ℕ} (hjob : s.add job = .holding) :
    job ∉ s.added := by
  rw [h.mem, hjob]
  exact Bool.false_ne_true

theorem added_step {s s' : State n} {l : Label n} (h : Added s) (hm : Moves s l s') : Added s' := by
  cases hm with
  | @add_list job hj =>
    have hjob := h.notMem hj
    refine ⟨List.nodup_append.mpr ⟨h.nodup, List.nodup_singleton job, ?_⟩, fun job' => ?_⟩
    · rintro a ha b hb rfl
      rw [List.mem_singleton.mp hb] at ha
      exact hjob ha
    · show job' ∈ s.added ++ [job] ↔ (Function.update s.add job .listed job').added = true
      rw [List.mem_append, List.mem_singleton]
      by_cases hj' : job' = job
      · rw [hj', Function.update_self]
        exact ⟨fun _ => rfl, fun _ => Or.inr rfl⟩
      · rw [Function.update_of_ne hj', ← h.mem]
        exact or_iff_left hj'
  | add_lock hj _ | signal hj _ | signal_nobody hj _ | add_unlock hj =>
    exact h.keep rfl (added_update hj rfl)
  | _ => exact h.keep rfl fun _ => rfl

theorem added_start (n : ℕ) (heap : Heap) : Added (start n heap) :=
  ⟨List.nodup_nil, fun _ => ⟨nofun, nofun⟩⟩

theorem added_of_reachable {heap : Heap} {s : State n} (h : (queue n heap).Reachable s) : Added s :=
  invariant (added_start n heap) (fun _ _ _ hs hm => added_step hs hm) h

/-! ## The list in the heap -/

/-- A new job waits in front. -/
theorem Served.waiting_add {s s' : State n} (h : Served s) {job : ℕ} (hjob : job ∉ s.added)
    (hadded : s'.added = s.added ++ [job]) (hhanded : s'.handed = s.handed) :
    waiting s' = job :: waiting s := by
  have hnot : job ∉ s.handed.map Prod.snd := fun hmem => hjob (h.handed_added hmem)
  rw [waiting, waiting, hadded, hhanded, List.reverse_append, List.reverse_singleton,
    List.singleton_append, List.filter_cons_of_pos (by rwa [decide_eq_true_iff])]

theorem Served.add {s s' : State n} (h : Served s) {job : ℕ} (hjob : job ∉ s.added)
    (hlist : (s'.heap, s'.waitingJobs) = llAdd job s.heap s.waitingJobs)
    (hadded : s'.added = s.added ++ [job]) (hhanded : s'.handed = s.handed) : Served s' := by
  have hwaiting : waiting s' = job :: waiting s := h.waiting_add hjob hadded hhanded
  rw [llAdd_eq, Prod.mk.injEq] at hlist
  refine ⟨by rw [hhanded]; exact h.handed_nodup, ?_, ?_⟩
  · rw [hhanded, hadded]
    exact fun job' hmem => List.mem_append_left _ (h.handed_added hmem)
  · rw [hwaiting, hlist.1, hlist.2]
    exact h.stack.push fun hmem => hjob (mem_waiting.mp hmem).1

/-- What a worker takes is what waits in front. -/
theorem Served.front {s : State n} (h : Served s) {job : ℕ} (hjob : s.waitingJobs = some job) :
    ∃ jobs, waiting s = job :: jobs := by
  have hchain := h.stack.chain
  rw [hjob] at hchain
  generalize waiting s = jobs at hchain
  cases hchain with
  | @cons _ jobs _ => exact ⟨jobs, rfl⟩

theorem Served.waiting_hand {s s' : State n} (ha : Added s) (h : Served s) {w : Fin n} {job : ℕ}
    (hjob : s.waitingJobs = some job) (hadded : s'.added = s.added)
    (hhanded : s'.handed = s.handed ++ [(w, job)]) : waiting s = job :: waiting s' := by
  obtain ⟨jobs, hjobs⟩ := h.front hjob
  have hnodup := ha.waiting_nodup
  rw [hjobs] at hnodup
  have hfilter : waiting s' = (waiting s).filter fun job' => job' ≠ job := by
    rw [waiting, waiting, List.filter_filter, hadded, hhanded]
    refine List.filter_congr fun job' _ => ?_
    rw [Bool.eq_iff_iff, Bool.and_eq_true, decide_eq_true_iff, decide_eq_true_iff,
      decide_eq_true_iff, List.map_append, List.map_singleton, List.mem_append,
      List.mem_singleton, not_or, and_comm]
  have hwaiting : waiting s' = jobs := by
    rw [hfilter, hjobs, List.filter_cons_of_neg (by simp), List.filter_eq_self]
    intro job' hmem'
    rw [decide_eq_true_iff]
    rintro rfl
    exact (List.nodup_cons.mp hnodup).1 hmem'
  rw [hjobs, hwaiting]

theorem Served.hand {s s' : State n} (ha : Added s) (h : Served s) {w : Fin n} {job : ℕ}
    (hjob : s.waitingJobs = some job)
    (hlist : (s'.heap, s'.waitingJobs) = llRemove job s.heap s.waitingJobs)
    (hadded : s'.added = s.added) (hhanded : s'.handed = s.handed ++ [(w, job)]) : Served s' := by
  have hjobs : waiting s = job :: waiting s' := h.waiting_hand ha hjob hadded hhanded
  have hnodup := ha.waiting_nodup
  rw [hjobs] at hnodup
  have hmem : job ∈ s.added ∧ job ∉ s.handed.map Prod.snd :=
    mem_waiting.mp (by rw [hjobs]; exact List.mem_cons_self)
  have hstack := h.stack
  rw [hjob, hjobs] at hstack
  have hremove := llRemove_front hstack hnodup
  rw [← hjob, ← hlist] at hremove
  refine ⟨?_, ?_, hremove⟩
  · rw [hhanded, List.map_append, List.map_singleton]
    refine List.nodup_append.mpr ⟨h.handed_nodup, List.nodup_singleton job, ?_⟩
    rintro a ha b hb rfl
    rw [List.mem_singleton.mp hb] at ha
    exact hmem.2 ha
  · rw [hhanded, hadded, List.map_append, List.map_singleton]
    intro job' hmem'
    rcases List.mem_append.mp hmem' with hmem' | hmem'
    · exact h.handed_added hmem'
    · rw [List.mem_singleton.mp hmem']
      exact hmem.1

theorem served_step {s s' : State n} {l : Label n} (ha : Added s)
    (h : s.shutdown = .idle → Served s) (hm : Moves s l s') (hs : s'.shutdown = .idle) :
    Served s' := by
  cases hm with
  | remove _ hjob => exact (h hs).hand ha hjob rfl rfl rfl
  | add_list hj => exact (h hs).add (ha.notMem hj) rfl rfl rfl
  | shutdown_begin _ | flag _ | shutdown_lock _ _ | clear _ | broadcast _ | shutdown_unlock _ =>
    cases hs
  | _ => exact ⟨(h hs).handed_nodup, (h hs).handed_added, (h hs).stack⟩

theorem served_of_reachable {heap : Heap} {s : State n} (h : (queue n heap).Reachable s)
    (hs : s.shutdown = .idle) : Served s := by
  refine (invariant (P := fun s => Added s ∧ (s.shutdown = .idle → Served s)) ?_ ?_ h).2 hs
  · exact ⟨added_start n heap, fun _ => ⟨List.nodup_nil, nofun, .nil, nofun⟩⟩
  · exact fun s l s' hs hm => ⟨added_step hs.1 hm, served_step hs.1 hs.2 hm⟩

/-- **The queue is a stack** of the jobs that wait: a step puts a job in front, gives the
front to a worker, or leaves them alone. -/
theorem stack_step {heap : Heap} {s s' : State n} {l : Label n} (h : (queue n heap).Reachable s)
    (hstep : step s l = some s') (hs : s'.shutdown = .idle) :
    (∃ job, l = .add job ∧ waiting s' = job :: waiting s) ∨
      (∃ w job, l = .worker w ∧ s'.worker w = .unlock (some job) ∧ waiting s = job :: waiting s') ∨
      waiting s' = waiting s := by
  have ha := added_of_reachable h
  cases moves_of_step hstep with
  | @add_list job hj =>
    exact Or.inl ⟨job, rfl, (served_of_reachable h hs).waiting_add (ha.notMem hj) rfl rfl⟩
  | @remove w job _ hjob =>
    exact Or.inr (Or.inl ⟨w, job, rfl, Function.update_self ..,
      (served_of_reachable h hs).waiting_hand ha hjob rfl rfl⟩)
  | shutdown_begin _ | flag _ | shutdown_lock _ _ | clear _ | broadcast _ | shutdown_unlock _ =>
    cases hs
  | _ => exact Or.inr (Or.inr rfl)

/-! ## Each job once -/

/-- A step that hands a job out hands out the last one added of those that wait. -/
theorem handed_step {s s' : State n} {l : Label n} (h : Served s) (hm : Moves s l s')
    (hne : s'.handed ≠ s.handed) : ∃ w job older newer, s'.handed = s.handed ++ [(w, job)] ∧
      s.added = older ++ job :: newer ∧ job ∈ waiting s ∧ ∀ job' ∈ newer, job' ∉ waiting s := by
  cases hm with
  | @remove w job _ hjob =>
    obtain ⟨jobs, hjobs⟩ := h.front hjob
    have hmem : job ∈ waiting s := by
      rw [hjobs]
      exact List.mem_cons_self
    obtain ⟨newer, older, hsplit, hnewer, -, -⟩ := List.filter_eq_cons_iff.mp hjobs
    refine ⟨w, job, older.reverse, newer.reverse, rfl, ?_, hmem, fun job' hjob' hwaits => ?_⟩
    · rw [← List.reverse_reverse s.added, hsplit, List.reverse_append, List.reverse_cons,
        List.append_assoc, List.singleton_append]
    · refine hnewer job' (List.mem_reverse.mp hjob') ?_
      rw [decide_eq_true_iff]
      exact (mem_waiting.mp hwaits).2
  | _ => exact absurd rfl hne

/-- **Each job is handled once**, and the last one added first. -/
theorem jobs_handled_once {heap : Heap} {s : State n} (h : (queue n heap).Reachable s)
    (hs : s.shutdown = .idle) :
    Chain s.heap s.waitingJobs (waiting s) ∧ (waiting s).Nodup ∧
      (∀ job, job ∈ s.added ↔ job ∈ waiting s ∨ ∃ w, (w, job) ∈ s.handed) ∧
      (∀ job ∈ waiting s, ∀ w, (w, job) ∉ s.handed) ∧ (s.handed.map Prod.snd).Nodup ∧
      ∀ l s', (queue n heap).step s l s' → s'.handed ≠ s.handed →
        ∃ w job older newer, s'.handed = s.handed ++ [(w, job)] ∧
          s.added = older ++ job :: newer ∧ job ∈ waiting s ∧ ∀ job' ∈ newer, job' ∉ waiting s := by
  have hserved := served_of_reachable h hs
  have hhanded : ∀ job, job ∈ s.handed.map Prod.snd ↔ ∃ w, (w, job) ∈ s.handed := by
    intro job
    rw [List.mem_map]
    constructor
    · rintro ⟨⟨w, _⟩, hp, rfl⟩
      exact ⟨w, hp⟩
    · rintro ⟨w, hp⟩
      exact ⟨(w, job), hp, rfl⟩
  refine ⟨hserved.stack.chain, (added_of_reachable h).waiting_nodup, fun job => ?_, ?_,
    hserved.handed_nodup, fun l s' hstep => handed_step hserved (moves_of_step hstep)⟩
  · rw [mem_waiting, ← hhanded]
    constructor
    · intro hmem
      by_cases hjob : job ∈ s.handed.map Prod.snd
      · exact Or.inr hjob
      · exact Or.inl ⟨hmem, hjob⟩
    · rintro (hmem | hmem)
      · exact hmem.1
      · exact hserved.handed_added hmem
  · intro job hjob w hp
    exact (mem_waiting.mp hjob).2 ((hhanded job).mpr ⟨w, hp⟩)

/-- Three jobs are added in memory full of garbage; a worker takes the last. -/
theorem jobs_handled_once_three : ∃ s : State 2, s.handed = [(1, 6)] ∧ waiting s = [5, 4] ∧
    Chain s.heap s.waitingJobs (waiting s) ∧ (waiting s).Nodup := by
  have h : (queue 2 fun job => ⟨some (job + 1), some 4⟩).Reachable _ :=
    reachable_of_labels (List.replicate 2 (.add 4) ++ [.signal 4 none, .add 4] ++
      List.replicate 2 (.add 5) ++ [.signal 5 none, .add 5] ++
      List.replicate 2 (.add 6) ++ [.signal 6 none, .add 6] ++ List.replicate 4 (.worker 1)) rfl
  obtain ⟨hchain, hnodup, -⟩ := jobs_handled_once h rfl
  exact ⟨_, rfl, rfl, hchain, hnodup⟩

end WorkQueue
end UnixNetwork
