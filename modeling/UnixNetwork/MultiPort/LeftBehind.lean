import UnixNetwork.MultiPort.Stranding

/-!
# What is left behind

Once something is stranded, the server does nothing about it by itself.

* `shared_report_strands`: connections that share a report leave a queue that is never
  empty again.  Each later report is answered by one `accept` too, so the queue stays
  behind by what it was once short of.
* `left_bytes_stay`: bytes that are left behind with nobody coming for them are there
  until more arrive at their client.
-/

namespace UnixNetwork
namespace MultiPort

open Multiplex

variable {n : ℕ} {p : Ports}

/-! ## Connections -/

/-- Steps make no connection reported that was not. -/
theorem unreported_mono {s s' : State n} {l : Label n} (h : Kept p s) (hm : Moves p s l s')
    {port : Fd} (hport : port ∈ p.sockfds) : unreported s port ≤ unreported s' port := by
  by_cases hfail : l = .fail
  · subst hfail
    cases hm
    have hrest : reports s port = (if (s.listener port).news then 1 else 0) + s.main.rest.count port :=
      rfl
    show ((s.listener port).queue.length : ℤ) - reports s port ≤
      (s.listener port).queue.length - ((if (s.listener port).news then 1 else 0 : ℕ) + 0 : ℕ)
    omega
  by_cases hshared : l = .connect port ∧ (s.listener port).news = true
  · obtain ⟨rfl, -⟩ := hshared
    cases hm
    rw [unreported_connect]
    split <;> omega
  · refine (unreported_step h hm hfail hport fun hl => ?_).ge
    exact Bool.eq_false_iff.mpr fun hnews => hshared ⟨hl, hnews⟩

theorem kept_of_reachable {s : State n} (h : (server n p).Reachable s) : Kept p s := by
  refine TransitionSystem.Reachable.invariant (P := Kept p) ?_ ?_ h
  · rintro s rfl
    exact kept_start n p
  · intro s l s' hs hstep
    exact kept_step hs (moves_of_step hstep).2

theorem unreported_nonneg {s : State n} (h : (server n p).Reachable s) {port : Fd}
    (hport : port ∈ p.sockfds) : 0 ≤ unreported s port := by
  induction h with
  | init hstart =>
    obtain rfl := hstart
    exact le_refl _
  | step hreach hstep ih =>
    exact ih.trans (unreported_mono (kept_of_reachable hreach) (moves_of_step hstep).2 hport)

/-- **A connection that shares the report of another one** leaves a queue that is never empty
again. -/
theorem shared_report_strands {s s' u : State n} {port : Fd} (h : (server n p).Reachable s)
    (hnews : (s.listener port).news = true) (hstep : step p s (.connect port) = some s')
    (hlater : (server n p).Steps s' u) : (u.listener port).queue ≠ [] := by
  obtain ⟨hport, hs'⟩ : port ∈ p.sockfds ∧ 1 ≤ unreported s' port := by
    cases (moves_of_step hstep).2 with
    | connect hport =>
      refine ⟨hport, ?_⟩
      have hnonneg := unreported_nonneg h hport
      rw [unreported_connect, if_pos hnews]
      omega
  have hreach : (server n p).Reachable s' := .step h hstep
  have hu : 1 ≤ unreported u port := by
    refine hlater.invariant (P := fun u => 1 ≤ unreported u port) hs' ?_
    intro t l t' hsteps ht htt'
    have hkept := kept_of_reachable (hreach.steps hsteps)
    exact ht.trans (unreported_mono hkept (moves_of_step htt').2 hport)
  intro hnil
  rw [unreported, hnil, List.length_nil] at hu
  omega

/-! ## Bytes -/

/-- Bytes of an open client for which nobody comes. -/
structure Stranded (s : State n) (fd : Fd) : Prop where
  client : fd ∈ s.clients
  received : (s.socket fd).received ≠ []
  alone : ¬ Coming s fd

section Stranded

variable {s s' : State n} {x : Fd}

/-- A thread moves, and does not come to these bytes. -/
theorem Stranded.moved (h : Stranded s x) {t : Thread n} {proc : Proc}
    (hproc : s'.proc = Function.update s.proc t proc)
    (hattends : proc.attends = some x → (s.proc t).attends = some x)
    (hclients : s'.clients = s.clients) (hmain : s'.main = s.main) (hjobs : s'.jobs = s.jobs)
    (hreceived : (s'.socket x).received = (s.socket x).received)
    (hnews : (s'.socket x).news = (s.socket x).news) : Stranded s' x where
  client := hclients ▸ h.client
  received := hreceived ▸ h.received
  alone := by
    intro hcoming
    refine h.alone (hcoming.mono (hnews.symm.trans ·) (hmain ▸ id) (hjobs ▸ id) fun u hu => ?_)
    rw [hproc] at hu
    by_cases hut : u = t
    · rw [hut, Function.update_self] at hu
      rw [hut]
      exact hattends hu
    · rw [Function.update_of_ne hut] at hu
      exact hu

/-- `main` moves, and does not come to them. -/
theorem Stranded.kept (h : Stranded s x) (hclients : x ∈ s.clients → x ∈ s'.clients)
    (hsocket : s'.socket x = s.socket x) (hrest : x ∈ s'.main.rest → x ∈ s.main.rest)
    (hjobs : x ∈ s'.jobs → x ∈ s.jobs ∨ x ∈ s.main.rest) (hproc : s'.proc = s.proc) :
    Stranded s' x where
  client := hclients h.client
  received := hsocket ▸ h.received
  alone := by
    rintro (hnews | hmem | hjob | ⟨u, hu⟩)
    · exact h.alone (Or.inl (hsocket ▸ hnews))
    · exact h.alone (Or.inr (Or.inl (hrest hmem)))
    · exact h.alone ((hjobs hjob).elim (fun hjob => Or.inr (Or.inr (Or.inl hjob)))
        fun hmem => Or.inr (Or.inl hmem))
    · exact h.alone (Or.inr (Or.inr (Or.inr ⟨u, hproc ▸ hu⟩)))

theorem Stranded.ne_of_attends (h : Stranded s x) {t : Thread n} {fd : Fd}
    (ht : (s.proc t).attends = some fd) : x ≠ fd := by
  rintro rfl
  exact h.alone (Or.inr (Or.inr (Or.inr ⟨t, ht⟩)))

theorem eq_of_attends_received {fd : Fd} {data : List UInt8} {retCode : ℕ}
    (h : (Proc.received fd data retCode).attends = some x) : fd = x := by
  rw [Proc.attends] at h
  split at h
  · exact Option.some.inj h
  · cases h

/-- **Bytes that are left behind stay** until more arrive at their client. -/
theorem stranded_step {l : Label n} (hkept : Kept p s) (h : Stranded s x) (hm : Moves p s l s')
    (harrive : ∀ a, l ≠ .arrive x a) : Stranded s' x := by
  cases hm with
  | connect _ | early => exact h.kept id rfl id Or.inl rfl
  | @arrive fd a _ =>
    have hne : x ≠ fd := by
      rintro rfl
      exact harrive a rfl
    exact h.kept id (socket_setSocket_of_ne s _ hne) id Or.inl rfl
  | @report fds hmain _ hnews =>
    have hnot : x ∉ fds := by
      intro hmem
      rcases hnews x hmem with ⟨hport, -⟩ | ⟨-, hnew⟩
      · exact hkept.apart x h.client hport
      · exact h.alone (Or.inl hnew)
    have hsocket : (s.reported fds).socket x = s.socket x := by
      show ({ s.socket x with news := (s.socket x).news && decide (x ∉ fds) } : Socket) = s.socket x
      rw [decide_eq_true hnot, Bool.and_true]
    exact h.kept id hsocket (fun hmem => absurd hmem hnot) Or.inl rfl
  | @accept clientfd fd rest c queue hmain _ hclient _ _ =>
    have hne : x ≠ clientfd := by
      rintro rfl
      exact hclient h.client
    refine h.kept (fun hx => Finset.mem_insert_of_mem hx) (Function.update_of_ne hne ..)
      (fun hmem => ?_) Or.inl rfl
    rw [hmain]
    exact List.mem_cons_of_mem fd hmem
  | batch_done hmain | count hmain | add hmain =>
    refine h.kept id rfl (fun hmem => ?_) Or.inl rfl
    rw [hmain]
    exact hmem
  | @process fd rest hmain _ hidle =>
    have hrest : Stranded { s with main := .events rest } x := by
      refine h.kept id rfl (fun hmem => ?_) Or.inl rfl
      rw [hmain]
      exact List.mem_cons_of_mem fd hmem
    refine hrest.moved (t := .main) rfl (fun hattends => ?_) rfl rfl rfl rfl rfl
    obtain rfl : fd = x := Option.some.inj hattends
    refine absurd (Or.inr (Or.inl ?_)) h.alone
    rw [hmain]
    exact List.mem_cons_self
  | @add_job fd rest hmain _ =>
    refine h.kept id rfl (fun hmem => ?_) (fun hjob => ?_) rfl
    · rw [hmain]
      exact List.mem_cons_of_mem fd hmem
    · rcases List.mem_cons.mp hjob with rfl | hjob
      · refine Or.inr ?_
        rw [hmain]
        exact List.mem_cons_self
      · exact Or.inl hjob
  | fail _ => exact h.kept id rfl nofun Or.inl rfl
  | @take w fd jobs hidle hjobs =>
    have hrest : Stranded { s with jobs := jobs } x := by
      refine h.kept id rfl id (fun hjob => Or.inl ?_) rfl
      rw [hjobs]
      exact List.mem_cons_of_mem fd hjob
    refine hrest.moved rfl (fun hattends => ?_) rfl rfl rfl rfl rfl
    obtain rfl : fd = x := Option.some.inj hattends
    refine absurd (Or.inr (Or.inr (Or.inl ?_))) h.alone
    rw [hjobs]
    exact List.mem_cons_self
  | recv_closed ht _ | recv_again ht _ | poll_again ht _ =>
    exact h.moved rfl (by rw [ht]; exact id) rfl rfl rfl rfl rfl
  | recv_error ht _ =>
    exact h.moved rfl (by rw [ht]; exact id) rfl rfl rfl
      (received_of_update rfl fun _ => by rfl) (news_of_update rfl (by rfl) x)
  | leave ht => exact h.moved rfl (by rw [ht, attends_gone]; exact id) rfl rfl rfl rfl rfl
  | recv_eof ht _ | poll_hup ht _ | poll_timeout ht _ =>
    refine h.moved rfl (fun hattends => ?_) rfl rfl rfl rfl rfl
    rw [ht]
    exact congrArg some (eq_of_attends_received hattends)
  | reply _ _ | nothing _ _ => exact h.moved rfl nofun rfl rfl rfl rfl rfl
  | send _ _ =>
    exact h.moved rfl nofun rfl rfl rfl (received_of_update rfl fun _ => by rfl)
      (news_of_update rfl (by rfl) x)
  | recv_some ht _ =>
    have hne := h.ne_of_attends (congrArg Proc.attends ht)
    exact h.moved rfl (by rw [ht]; exact id) rfl rfl rfl
      (received_of_update rfl fun hx => absurd hx hne) (news_of_update rfl (by rfl) x)
  | recv_full ht _ _ _ =>
    have hne := h.ne_of_attends (congrArg Proc.attends ht)
    refine h.moved rfl (fun hattends => ?_) rfl rfl rfl
      (received_of_update rfl fun hx => absurd hx hne) (news_of_update rfl (by rfl) x)
    exact absurd (eq_of_attends_received hattends).symm hne
  | @close t fd ht =>
    have hne : x ≠ fd := h.ne_of_attends (congrArg Proc.attends ht)
    have hclient : Stranded (s.setProc t .idle) x := h.moved rfl nofun rfl rfl rfl rfl rfl
    exact hclient.kept (fun hx => Finset.mem_erase.mpr ⟨hne, hx⟩) rfl id Or.inl rfl

/-- A thread that leaves a client for which nobody else comes. -/
theorem not_coming_of_moved {t : Thread n} (h : ¬ OtherComing s t x) {proc : Proc}
    (hproc : s'.proc = Function.update s.proc t proc) (hattends : proc.attends = none)
    (hnews : (s'.socket x).news = (s.socket x).news) (hmain : s'.main = s.main)
    (hjobs : s'.jobs = s.jobs) : ¬ Coming s' x := by
  rintro (hnew | hmem | hjob | ⟨u, hu⟩)
  · exact h (Or.inl (hnews.symm.trans hnew))
  · exact h (Or.inr (Or.inl (hmain ▸ hmem)))
  · exact h (Or.inr (Or.inr (Or.inl (hjobs ▸ hjob))))
  · refine h (Or.inr (Or.inr (Or.inr ⟨u, ?_⟩)))
    rw [hproc] at hu
    by_cases hut : u = t
    · rw [hut, Function.update_self, hattends] at hu
      cases hu
    · rw [Function.update_of_ne hut] at hu
      exact ⟨hut, hu⟩

/-- What `leavesBehind` looks for. -/
theorem leavesBehind_eq_some {l : Label n} {t : Thread n} (h : leavesBehind s l = some (t, x)) :
    (∃ data retCode, l = .recv t ∧ s.proc t = .recv x data retCode ∧ x ∈ s.clients ∧
        maxBuffer - data.length < (s.socket x).received.length) ∨
      ∃ data retCode, l = .poll t .hup ∧ s.proc t = .poll x data retCode ∧ data ≠ [] ∧
        (s.socket x).received ≠ [] := by
  unfold leavesBehind at h
  split at h
  · split at h
    · split at h
      · rename_i ht hboth
        cases h
        exact Or.inl ⟨_, _, rfl, ht, hboth⟩
      · cases h
    · cases h
  · split at h
    · split at h
      · rename_i ht hboth
        cases h
        exact Or.inr ⟨_, _, rfl, ht, hboth⟩
      · cases h
    · cases h
  · cases h

/-- If nobody else comes, they are stranded. -/
theorem stranded_of_leavesBehind {l : Label n} {t : Thread n} (hm : Moves p s l s')
    (hleaves : leavesBehind s l = some (t, x)) (hnot : ¬ OtherComing s t x) : Stranded s' x := by
  rcases leavesBehind_eq_some hleaves with ⟨data, retCode, rfl, hproc, hclient, hlong⟩ |
    ⟨data, retCode, rfl, hproc, hdata, hne⟩
  · have hnil : (s.socket x).received ≠ [] := by
      intro hnil
      rw [hnil] at hlong
      exact absurd hlong (Nat.not_lt_zero _)
    cases hm with
    | recv_closed ht hclosed =>
      rw [hproc] at ht
      cases ht
      exact absurd hclient hclosed
    | recv_some ht hshort =>
      rw [hproc] at ht
      cases ht
      omega
    | @recv_full _ _ _ bytes _ ht _ _ hlength =>
      rw [hproc] at ht
      cases ht
      have hbytes : ¬ (bytes = [] ∧ retCode = ENOTCONN) := by
        rintro ⟨rfl, -⟩
        exact absurd hlength (by decide)
      refine ⟨hclient, ?_, ?_⟩
      · refine fun hdrop => absurd ((congrArg Socket.received (socket_setSocket s x _)).symm.trans
          hdrop) ?_
        rw [List.drop_eq_nil_iff]
        exact not_le.mpr hlong
      · exact not_coming_of_moved hnot rfl (attends_received hbytes) (news_of_update rfl (by rfl) x)
          rfl rfl
    | recv_error ht hnil' | recv_eof ht hnil' | recv_again ht hnil' =>
      rw [hproc] at ht
      cases ht
      exact absurd hnil' hnil
  · cases hm with
    | poll_hup ht hclient =>
      rw [hproc] at ht
      cases ht
      refine ⟨hclient, hne, ?_⟩
      exact not_coming_of_moved hnot rfl (attends_received fun hboth => hdata hboth.1) rfl rfl rfl
    | poll_again _ hhup => exact absurd rfl hhup

/-- **Bytes that `nRecv` leaves behind**, with nobody else coming, are still there in every
later state, as long as nothing arrives at their client. -/
theorem left_bytes_stay {u : State n} {l : Label n} {t : Thread n} (h : (server n p).Reachable s)
    (hstep : step p s l = some s') (hleaves : leavesBehind s l = some (t, x))
    (hnot : ¬ OtherComing s t x)
    (hlater : ((server n p).restrict fun _ l _ => ∀ a, l ≠ .arrive x a).Steps s' u) :
    Stranded u x := by
  have hs' : Kept p s' ∧ Stranded s' x :=
    ⟨kept_of_reachable (.step h hstep),
      stranded_of_leavesBehind (moves_of_step hstep).2 hleaves hnot⟩
  refine (hlater.invariant (P := fun u => Kept p u ∧ Stranded u x) hs' ?_).2
  rintro v l v' - ⟨hkept, hstranded⟩ ⟨hvv', harrive⟩
  have hm := (moves_of_step hvv').2
  exact ⟨kept_step hkept hm, stranded_step hkept hstranded hm harrive⟩

end Stranded

end MultiPort
end UnixNetwork
