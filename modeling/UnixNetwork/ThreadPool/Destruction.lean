import Mathlib.Data.Finset.Card
import Mathlib.Data.Int.Cast.Basic
import UnixNetwork.ThreadPool.CommitOrder

/-!
# What the destructor leaves undone

When `~ThreadPool` stores `stop`, a worker that has passed `while (!stop)` and has not
taken a task yet still takes one, if there is one; then it comes to the test and leaves.
So the pool takes at most as many tasks more as there are such workers (`entered`), and
as many unless the queue runs out (`Drains`).

* `destruction_runs_committed_iff`: the destructor has run what was committed before it
  just if so many workers were enough.
* `destruction_drops_task`: they need not be.
-/

namespace UnixNetwork
namespace ThreadPool

variable {n : ℕ}

/-- The places between the test of the loop and taking a task. -/
def WorkerPc.entered : WorkerPc → Bool
  | .lock | .pred | .block | .blocked | .woken | .check | .take => true
  | _ => false

/-- How many workers are there. -/
def entered (s : State n) : ℕ := (Finset.univ.filter fun w => (s.worker w).entered = true).card

theorem entered_congr {s s' : State n} (h : ∀ w, (s'.worker w).entered = (s.worker w).entered) :
    entered s' = entered s := by
  rw [entered, entered]
  congr 1
  ext w
  rw [Finset.mem_filter, Finset.mem_filter, h w]

section Moved

variable {s s' : State n} {w : Fin n} {pc : WorkerPc}

/-- A worker goes on, and is there after as before, -/
theorem entered_moved (hworker : s'.worker = Function.update s.worker w pc)
    (hpc : pc.entered = (s.worker w).entered) : entered s' = entered s := by
  refine entered_congr fun w' => ?_
  rw [hworker]
  by_cases hw : w' = w
  · rw [hw, Function.update_self, hpc]
  · rw [Function.update_of_ne hw]

/-- or is not any more. -/
theorem entered_left (hworker : s'.worker = Function.update s.worker w pc)
    (hw : (s.worker w).entered = true) (hpc : pc.entered = false) :
    entered s = entered s' + 1 := by
  have herase : (Finset.univ.filter fun w => (s'.worker w).entered = true) =
      (Finset.univ.filter fun w => (s.worker w).entered = true).erase w := by
    ext w'
    rw [Finset.mem_erase, Finset.mem_filter, Finset.mem_filter, hworker]
    by_cases hw' : w' = w
    · rw [hw', Function.update_self, hpc]
      exact ⟨fun h => absurd h.2 Bool.false_ne_true, fun h => absurd rfl h.1⟩
    · rw [Function.update_of_ne hw']
      exact ⟨fun h => ⟨hw', h⟩, fun h => h.2⟩
  have hmem : w ∈ Finset.univ.filter fun w => (s.worker w).entered = true :=
    Finset.mem_filter.mpr ⟨Finset.mem_univ w, hw⟩
  rw [entered, entered, herase, Finset.card_erase_add_one hmem]

end Moved

/-- A queue behind `pre`, of which `done` is what was served in the end, up to `k` letters
of the queue unless it ran out. -/
theorem mem_served_iff {α : Type*} {pre queue done all : List α} {k : ℕ} (hdone : done <+: all)
    (hqueue : pre ++ queue <+: all) (hnodup : all.Nodup) (hle : done.length ≤ pre.length + k)
    (hor : (pre ++ queue).length ≤ done.length ∨ done.length = pre.length + k) :
    pre ⊆ done ∧ ∀ c ∈ queue, c ∈ done ↔ c ∈ queue.take k := by
  have hfront : pre ++ queue.take k <+: pre ++ queue :=
    (List.prefix_append_right_inj pre).mpr (List.take_prefix k queue)
  have hlen : (pre ++ queue.take k).length ≤ done.length := by
    have hmin := List.length_take_le k queue
    rw [List.length_append] at hor ⊢
    rcases hor with hall | hsum
    · have hqueue := List.length_take_le' k queue
      omega
    · omega
  have hserved : pre ++ queue.take k <+: done :=
    List.prefix_of_prefix_length_le (hfront.trans hqueue) hdone hlen
  refine ⟨fun c hc => hserved.subset (List.mem_append_left _ hc), fun c hc => ⟨fun hmem => ?_,
    fun hmem => hserved.subset (List.mem_append_right _ hmem)⟩⟩
  by_contra hnot
  have hdrop : c ∈ queue.drop k := by
    rw [← List.take_append_drop k queue] at hc
    exact (List.mem_append.mp hc).resolve_left hnot
  have hk : k < queue.length := by
    by_contra hge
    rw [List.drop_of_length_le (not_lt.mp hge)] at hdrop
    cases hdrop
  have hshort : done.length ≤ (pre ++ queue.take k).length := by
    rw [List.length_append, List.length_take_of_le hk.le]
    exact hle
  have hin : c ∈ pre ++ queue.take k :=
    (List.prefix_of_prefix_length_le hdone (hfront.trans hqueue) hshort).subset hmem
  have hsplit : (pre ++ queue.take k ++ queue.drop k).Nodup := by
    rw [List.append_assoc, List.take_append_drop]
    exact hnodup.sublist hqueue.sublist
  exact (List.nodup_append.mp hsplit).2.2 c hin c hdrop rfl

/-! ## After `stop` -/

/-- How many tasks were taken out of the queue. -/
def taken (s : State n) : ℤ := s.appended.length - s.tasks.length

/-- After `stop` a worker on its way takes a task, or finds the queue empty. -/
theorem drain_step {s s' : State n} {l : Label n} (hstop : s.stop = true) (hm : Moves s l s') :
    taken s ≤ taken s' ∧ (taken s' + entered s' = taken s + entered s ∨
      s'.tasks = [] ∧ taken s' + entered s' ≤ taken s + entered s) := by
  have hsame : taken s' = taken s → entered s' = entered s → taken s ≤ taken s' ∧
      (taken s' + entered s' = taken s + entered s ∨
        s'.tasks = [] ∧ taken s' + entered s' ≤ taken s + entered s) := by
    intro htaken hentered
    rw [htaken, hentered]
    exact ⟨le_rfl, Or.inl rfl⟩
  cases hm with
  | test_go _ hgo | pred_false _ hgo _ | commit_made _ hgo =>
    rw [hstop] at hgo
    cases hgo
  | lock hw _ =>
    refine hsame rfl (entered_moved rfl ?_)
    rcases hw with hw | hw <;> rw [hw] <;> rfl
  | test_stop hw _ | pred_true hw _ | block hw | check_take hw _ | start hw | finish hw | unlock hw
  | returning hw | leaving hw | spurious hw | notify _ hw =>
    exact hsame rfl (entered_moved rfl (by rw [hw]; rfl))
  | @check_return w hw _ hnil =>
    have hleft : entered s = entered (s.goto w .returning) + 1 :=
      entered_left rfl (by rw [hw]; rfl) rfl
    have htaken : taken (s.goto w .returning) = taken s := rfl
    rw [htaken, hleft]
    exact ⟨le_rfl, Or.inr ⟨hnil, by omega⟩⟩
  | @take w task tasks hw htasks =>
    have hleft : entered s = entered
        ({ s with tasks := tasks, idlThrNum := s.idlThrNum - 1 }.goto w (.taken task)) + 1 :=
      entered_left rfl (by rw [hw]; rfl) rfl
    have htaken : taken ({ s with tasks := tasks, idlThrNum := s.idlThrNum - 1 }.goto w
        (.taken task)) = taken s + 1 := by
      show (s.appended.length : ℤ) - tasks.length = s.appended.length - s.tasks.length + 1
      rw [htasks, List.length_cons]
      omega
    rw [htaken, hleft]
    exact ⟨by omega, Or.inl (by omega)⟩
  | @commit_append c hc =>
    refine hsame ?_ rfl
    show ((s.appended ++ [c]).length : ℤ) - (s.tasks ++ [c]).length =
      s.appended.length - s.tasks.length
    rw [List.length_append, List.length_append, List.length_singleton]
    omega
  | notify_all _ =>
    refine hsame rfl (entered_congr fun w => ?_)
    show ((notifyAll s).worker w).entered = (s.worker w).entered
    rw [notifyAll_worker]
    split
    · rename_i hw
      rw [hw]
      rfl
    · rfl
  | commit_refused _ _ | commit_lock _ _ | commit_unlock _ | notify_nobody _ _ | stop _
  | join _ _ _ | destroyed _ _ => exact hsame rfl rfl

/-- Tasks are only ever appended. -/
theorem appended_step {s s' : State n} {l : Label n} (hm : Moves s l s') :
    s.appended <+: s'.appended := by
  cases hm with
  | commit_append _ => exact List.prefix_append _ _
  | _ => exact List.prefix_rfl

/-- `stop` is never taken back. -/
theorem stop_step {s s' : State n} {l : Label n} (h : s.stop = true) (hm : Moves s l s') :
    s'.stop = true := by
  cases hm with
  | stop _ => rfl
  | _ => exact h

theorem exited_step {s s' : State n} {l : Label n} {w : Fin n} (h : s.worker w = .exited)
    (hm : Moves s l s') : s'.worker w = .exited := by
  have hmoved : ∀ {w' : Fin n} {pc pc' : WorkerPc} {t : State n}, s.worker w' = pc' →
      pc' ≠ .exited → t.worker = Function.update s.worker w' pc → t.worker w = .exited := by
    intro w' pc pc' t hw' hne ht
    have hww : w ≠ w' := by
      rintro rfl
      exact hne (hw'.symm.trans h)
    rw [ht, Function.update_of_ne hww]
    exact h
  cases hm with
  | lock hw _ =>
    rcases hw with hw | hw
    · exact hmoved hw nofun rfl
    · exact hmoved hw nofun rfl
  | test_stop hw _ | test_go hw _ | pred_true hw _ | pred_false hw _ _ | block hw
  | check_return hw _ _ | check_take hw _ | take hw _ | start hw | finish hw | unlock hw
  | returning hw | leaving hw | spurious hw | notify _ hw => exact hmoved hw nofun rfl
  | notify_all _ =>
    show (notifyAll s).worker w = .exited
    rw [notifyAll_worker, h]
    rfl
  | commit_refused _ _ | commit_made _ _ | commit_lock _ _ | commit_append _ | commit_unlock _
  | notify_nobody _ _ | stop _ | join _ _ _ | destroyed _ _ => exact h

/-- Workers that are joined. -/
def DtorPc.Joined (worker : Fin n → WorkerPc) : DtorPc → Prop
  | .joining k => ∀ w, w.val < k → worker w = .exited
  | .returned => ∀ w, worker w = .exited
  | _ => True

theorem joined_of_reachable {s : State n} (h : (pool n).Reachable s) : s.dtor.Joined s.worker := by
  refine invariant (P := fun s => s.dtor.Joined s.worker) trivial ?_ h
  intro s l s' hs hm
  have hkeep : ∀ d : DtorPc, d.Joined s.worker → d.Joined s'.worker := by
    intro d hd
    cases d with
    | joining k => exact fun w hw => exited_step (hd w hw) hm
    | returned => exact fun w => exited_step (hd w) hm
    | _ => trivial
  cases hm with
  | stop _ => trivial
  | notify_all _ => exact fun w hw => absurd hw (Nat.not_lt_zero _)
  | @join k hk hd hw =>
    rw [hd] at hs
    intro w hlt
    rcases Nat.lt_succ_iff_lt_or_eq.mp hlt with hlt | heq
    · exact hs w hlt
    · have hwk : w = ⟨k, hk⟩ := Fin.ext heq
      rw [hwk]
      exact hw
  | @destroyed k hd hk =>
    rw [hd] at hs
    exact fun w => hs w (w.isLt.trans_le hk)
  | _ => exact hkeep s.dtor hs

/-! ## The tasks that are run -/

/-- What is left of a run after the destructor stored `stop` in `s`. -/
structure Drains (s t : State n) : Prop where
  stop : t.stop = true
  appended : s.appended <+: t.appended
  taken_le : taken t + entered t ≤ taken s + entered s
  taken_or : (s.appended.length : ℤ) ≤ taken t ∨ taken t + entered t = taken s + entered s

theorem drains_step {s t t' : State n} {l : Label n} (h : Drains s t) (hm : Moves t l t') :
    Drains s t' := by
  obtain ⟨hmono, hdrain⟩ := drain_step h.stop hm
  have happended := h.appended.trans (appended_step hm)
  have hle := h.taken_le
  refine ⟨stop_step h.stop hm, happended, by omega, ?_⟩
  rcases hdrain with heq | ⟨hnil, -⟩
  · rcases h.taken_or with hall | hsum
    · exact Or.inl (by omega)
    · exact Or.inr (by omega)
  · -- the queue ran out, so everything appended was taken
    have hlen := happended.length_le
    have htaken : taken t' = t'.appended.length := by
      rw [taken, hnil, List.length_nil]
      exact Int.sub_zero _
    exact Or.inl (by omega)

/-- Behind the destructor nothing is left in anyone's hand. -/
theorem finished_of_returned {t : State n} (h : (pool n).Reachable t) (hd : t.dtor = .returned) :
    t.finished <+: t.appended ∧ (t.finished.length : ℤ) = taken t ∧ entered t = 0 := by
  have hexited := joined_of_reachable h
  rw [hd] at hexited
  have hhand : t.hand = .empty := by
    rw [State.hand]
    split
    · rename_i w _
      rw [hexited w]
      rfl
    · rfl
  have happended := (order_of_reachable h).appended
  rw [hhand] at happended
  have happended' : t.appended = t.finished ++ t.tasks := by
    rw [happended, Hand.tasks, List.append_nil]
  refine ⟨⟨t.tasks, happended'.symm⟩, ?_, ?_⟩
  · rw [taken, happended', List.length_append]
    omega
  · rw [entered, Finset.card_eq_zero, Finset.filter_eq_empty_iff]
    intro w _
    rw [hexited w]
    exact Bool.false_ne_true

/-- The first step of the destructor. -/
theorem step_dtor_idle {s : State n} (h : s.dtor = .idle) :
    (pool n).step s .dtor { s with stop := true, dtor := .stored } := by
  show step s .dtor = _
  rw [step, dtorStep, h]

/-- **The destructor has run what was committed before it began** just if the tasks that
wait for it are no more than the workers that have passed the test of the loop. -/
theorem destruction_runs_committed_iff {s s' t : State n} (hs : (pool n).Reachable s)
    (hbegin : s.dtor = .idle) (hstep : (pool n).step s .dtor s') (hrun : (pool n).Steps s' t)
    (hreturned : t.dtor = .returned) :
    (∀ c, s.commit c = .returned → t.finished.count c = 1) ↔
      ∀ c ∈ s.tasks, s.commit c = .returned → c ∈ s.tasks.take (entered s) := by
  have hs' : (pool n).Reachable s' := .step hs hstep
  have ht : (pool n).Reachable t := hs'.steps hrun
  have hdrains : Drains s t := by
    refine hrun.invariant (P := Drains s) ?_ fun u l u' _ hu hnext => drains_step hu (moves_of_step hnext)
    have hstored : { s with stop := true, dtor := .stored } = s' :=
      Option.some.inj ((step_dtor_idle hbegin).symm.trans hstep)
    rw [← hstored]
    exact ⟨rfl, List.prefix_rfl, le_rfl, Or.inr rfl⟩
  obtain ⟨hfinished, hlen, hentered⟩ := finished_of_returned ht hreturned
  have hle := hdrains.taken_le
  have hor := hdrains.taken_or
  rw [hentered] at hle hor
  have horder := (order_of_reachable hs).appended
  have htaken : taken s = (s.finished ++ s.hand.tasks).length := by
    rw [taken, horder, List.length_append]
    omega
  have hnodup := (commits_of_reachable ht).nodup
  have hqueue := hdrains.appended
  rw [horder] at hqueue
  have hboth := mem_served_iff (k := entered s) hfinished hqueue hnodup (by omega) (by
    rw [← horder]
    omega)
  obtain ⟨hpre, hserved⟩ := hboth
  have hcount : ∀ c, t.finished.count c = 1 ↔ c ∈ t.finished := by
    intro c
    refine ⟨fun h => List.count_pos_iff.mp (by rw [h]; exact Nat.one_pos), fun h => ?_⟩
    exact List.count_eq_one_of_mem (hnodup.sublist hfinished.sublist) h
  constructor
  · intro h c hc hcommit
    exact (hserved c hc).mp ((hcount c).mp (h c hcommit))
  · intro h c hcommit
    have hmem : c ∈ s.appended := ((commits_of_reachable hs).mem c).mpr (by rw [hcommit]; rfl)
    rw [horder, List.mem_append] at hmem
    refine (hcount c).mpr ?_
    rcases hmem with hmem | hmem
    · exact hpre hmem
    · exact (hserved c hmem).mpr (h c hmem hcommit)

/-- A run up to the destructor, and the rest of it. -/
def destroy (before after : List (Label n)) : Option (State n × State n) :=
  (before.foldlM step (start n)).bind fun s =>
    (step s .dtor).bind fun s' => (after.foldlM step s').map fun t => (s, t)

theorem run_of_destroy {before after : List (Label n)} {s t : State n}
    (h : destroy before after = some (s, t)) :
    (pool n).Reachable s ∧ ∃ s', (pool n).step s .dtor s' ∧ (pool n).Steps s' t := by
  obtain ⟨u, hu, hrest⟩ := Option.bind_eq_some_iff.mp h
  obtain ⟨u', hstep, hafter⟩ := Option.bind_eq_some_iff.mp hrest
  obtain ⟨v, hv, heq⟩ := Option.map_eq_some_iff.mp hafter
  cases heq
  exact ⟨reachable_of_labels before hu, u', hstep, steps_of_labels after hv⟩

/-- A task is committed while the only worker is on its way to the queue: it is run, if
the destructor comes now. -/
theorem destruction_runs_committed_one : ∃ s t : State 1,
    s.tasks = [5] ∧ t.dtor = .returned ∧ t.finished = [5] ∧
      ((∀ c, s.commit c = .returned → t.finished.count c = 1) ↔
        ∀ c ∈ s.tasks, s.commit c = .returned → c ∈ s.tasks.take (entered s)) := by
  have hrun : destroy (n := 1) ([.worker 0] ++ List.replicate 4 (.commit 5) ++ [.notify 5 none])
    (List.replicate 9 (.worker 0) ++ List.replicate 3 .dtor) = some (_, _) := rfl
  obtain ⟨hs, s', hstep, ht⟩ := run_of_destroy hrun
  exact ⟨_, _, rfl, rfl, rfl, destruction_runs_committed_iff hs rfl hstep ht rfl⟩

/-- The worker comes to the test of its loop after `stop` was stored, and the task stays in
the queue. -/
theorem destruction_drops_task : ¬ ∀ threads, 1 ≤ threads →
    ∀ s s' t : State (createThreadpool threads), (pool (createThreadpool threads)).Reachable s →
      s.dtor = .idle → (pool (createThreadpool threads)).step s .dtor s' →
      (pool (createThreadpool threads)).Steps s' t → t.dtor = .returned →
      ∀ c, s.commit c = .returned → t.finished.count c = 1 := by
  intro h
  have hone := h 1 le_rfl
  rw [createThreadpool_eq, if_pos (by decide)] at hone
  have hrun : destroy (n := 1) (List.replicate 4 (.commit 5) ++ [.notify 5 none])
    (List.replicate 2 (.worker 0) ++ List.replicate 3 .dtor) = some (_, _) := rfl
  obtain ⟨hs, s', hstep, ht⟩ := run_of_destroy hrun
  have hcount := hone _ s' _ hs rfl hstep ht rfl 5 rfl
  cases hcount

end ThreadPool
end UnixNetwork
