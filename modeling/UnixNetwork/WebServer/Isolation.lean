import UnixNetwork.Transition.System
import UnixNetwork.WebServer.Requests

/-!
# No bytes leak between connections

The static buffer of `my_read` is shared by all descriptors, and nothing empties
it.  What keeps the bytes of one client out of the requests of another is only
that `read_client_requests` never returns before `Readline` has come back with
nothing or with an error, and that then `my_read` has just found the buffer empty.

`Idle` is that invariant: between two calls there is nothing in the buffer.  It
holds at the start, since the static variables start as zeros, and `readRequest_spec`
says that a call keeps it, on whatever results `read` gives.  The same lemma says
that a call comes to an end, unless `read` delivers without end, and where the
bytes of the request come from.
-/

namespace UnixNetwork
namespace WebServer

open Bytes

/-- The static buffer is empty. -/
def Idle (s : State) : Prop := s.static.readCnt ≤ 0

/-- The epoll server, seen from its calls of `read_client_requests`: the
environment chooses the descriptor. -/
def server : TransitionSystem State Fd where
  init := fun s => s.static = MyRead.start
  step := fun s fd s' => ∃ outcome, readClientRequests s fd = .ok (outcome, s')

/-- The loop that drops lines ends, with the buffer empty: each line dropped takes
a byte from what is available. -/
theorem drain_spec (fd : Fd) (fuel : ℕ) (s : State) (h : available s fd < fuel) :
    ∃ s' out, drain fd fuel s = some s' ∧ Idle s' ∧ Moves fd s s' out := by
  induction fuel generalizing s with
  | zero => omega
  | succ fuel ih =>
    obtain ⟨hmoves, hidle, hne⟩ := readline_spec s fd readBufferSize (by decide)
    rw [drain]
    by_cases hret : 0 < (readline s fd readBufferSize).1.ret
    · have hpos := List.length_pos_iff.mpr (hne hret)
      have havail := hmoves.available
      obtain ⟨s', out, hdrain, hs', hmoves'⟩ := ih (readline s fd readBufferSize).2 (by omega)
      exact ⟨s', _, by rw [if_pos hret, hdrain], hs', hmoves.trans hmoves'⟩
    · exact ⟨_, _, if_neg hret, hidle (not_lt.mp hret), hmoves⟩

/-- **One call.**  From any state, reading a request comes to an end, with the
buffer empty; and the request is the beginning of what was buffered before,
followed by what the results taken from the descriptor delivered. -/
theorem readRequest_spec (s : State) (fd : Fd) :
    ∃ requestHead1 s' consumed, readRequest s fd = some (requestHead1, s') ∧ Idle s' ∧
      (∀ fd', fd' ≠ fd → s'.input fd' = s.input fd') ∧ s.input fd = consumed ++ s'.input fd ∧
      ∀ line, requestHead1 = some line → line <+: s.static.pending ++ delivered consumed := by
  obtain ⟨hmoves, hidle, -⟩ := readline_spec s fd readBufferSize (by decide)
  obtain ⟨consumed, hin, -⟩ := hmoves.bytes
  unfold readRequest
  dsimp only
  by_cases hneg : (readline s fd readBufferSize).1.ret < 0
  · exact ⟨none, _, consumed, if_pos hneg, hidle hneg.le, hmoves.others, hin, by simp⟩
  · rw [if_neg hneg]
    by_cases hzero : (readline s fd readBufferSize).1.ret = 0
    · exact ⟨none, _, consumed, if_pos hzero, hidle hzero.le, hmoves.others, hin, by simp⟩
    · rw [if_neg hzero]
      obtain ⟨s', out, hdrain, hs', hmoves'⟩ := drain_spec fd
        (available (readline s fd readBufferSize).2 fd + 1) _ (Nat.lt_succ_self _)
      have hall := hmoves.trans hmoves'
      obtain ⟨consumed', hin', hbytes⟩ := hall.bytes
      refine ⟨_, s', consumed', by rw [hdrain]; rfl, hs', hall.others, hin', ?_⟩
      rintro line ⟨⟩
      rw [cstr_padTo_eq, hbytes, List.append_assoc]
      exact (cstr_isPrefix _).trans (List.prefix_append _ _)

/-- A first line that `Readline` has stored is the request. -/
theorem readRequest_of_pos {s : State} {fd : Fd} (h : 0 < (readline s fd readBufferSize).1.ret) :
    ∃ s', readRequest s fd = some (some (cstr (readline s fd readBufferSize).1.stored), s') := by
  obtain ⟨s', -, hdrain, -⟩ := drain_spec fd
    (available (readline s fd readBufferSize).2 fd + 1) _ (Nat.lt_succ_self _)
  refine ⟨s', ?_⟩
  unfold readRequest
  dsimp only
  rw [if_neg (not_lt.mpr h.le), if_neg h.ne', hdrain, cstr_padTo_eq]
  rfl

/-- The line `Readline` gives to the epoll server, of a request that is there. -/
theorem readRequest_has {fd : Fd} {s : State} {stream : List UInt8} (h : Has fd s stream)
    (hline : (10 : UInt8) ∈ stream ∨ 1499 ≤ stream.length) :
    ∃ s', readRequest s fd = some (some (cstr (takeLine 1499 stream)), s') := by
  have hread : (readline s fd readBufferSize).1.stored = takeLine 1499 stream ∧
      0 < (readline s fd readBufferSize).1.ret := readlineLoop_has 1499 [] h hline
  have hrequest := readRequest_of_pos hread.2
  rwa [hread.1] at hrequest

/-- The state after a call is the state in which its request was read. -/
theorem readClientRequests_eq {s s' : State} {fd : Fd} {outcome : Outcome}
    (h : readClientRequests s fd = .ok (outcome, s')) :
    ∃ requestHead1, readRequest s fd = some (requestHead1, s') := by
  unfold readClientRequests at h
  split at h
  · cases h
  · rename_i s₁ hread
    cases h
    exact ⟨none, hread⟩
  · rename_i line s₁ hread
    split at h
    · cases h
    · cases h
      exact ⟨some line, hread⟩
    · cases h
      exact ⟨some line, hread⟩

/-- Between two calls the buffer is empty. -/
theorem idle_of_reachable {s : State} (h : server.Reachable s) : Idle s := by
  refine h.invariant (P := Idle) ?_ ?_
  · intro s hs
    have hs' : s.static = MyRead.start := hs
    show s.static.readCnt ≤ 0
    rw [hs']
    exact le_rfl
  · rintro s fd s' - ⟨outcome, hcall⟩
    obtain ⟨requestHead1, hread⟩ := readClientRequests_eq hcall
    obtain ⟨requestHead2, s'', -, hread', hidle, -⟩ := readRequest_spec s fd
    cases hread.symm.trans hread'
    exact hidle

/-- **No bytes leak between connections.**  After any sequence of calls, on any
descriptors and with any results of `read`, the static buffer is empty.  So in the
next call, on whatever descriptor, the request line is a beginning of what `read`
delivered on that descriptor during the call; the call leaves the buffer empty
again and has not read from any other descriptor. -/
theorem no_leak {s : State} (h : server.Reachable s) (fd : Fd) :
    s.static.readCnt ≤ 0 ∧
      ∃ requestHead1 s' consumed, readRequest s fd = some (requestHead1, s') ∧
        s'.static.readCnt ≤ 0 ∧ (∀ fd', fd' ≠ fd → s'.input fd' = s.input fd') ∧
        s.input fd = consumed ++ s'.input fd ∧
        (∀ line, requestHead1 = some line → line <+: delivered consumed) ∧
        ∀ outcome s'', readClientRequests s fd = .ok (outcome, s'') → s'' = s' := by
  have hidle := idle_of_reachable h
  obtain ⟨requestHead1, s', consumed, hread, hidle', hothers, hin, hline⟩ := readRequest_spec s fd
  rw [MyRead.pending_of_nonpos hidle, List.nil_append] at hline
  refine ⟨hidle, requestHead1, s', consumed, hread, hidle', hothers, hin, hline, ?_⟩
  intro outcome s'' hcall
  obtain ⟨requestHead2, hread'⟩ := readClientRequests_eq hcall
  cases hread.symm.trans hread'
  rfl

/-- Two clients: one whose request comes in two pieces around an interrupted
`read`, and one that has sent only part of its first line. -/
def twoClients : State where
  static := MyRead.start
  input := fun fd =>
    if fd = 5 then
      [.data (ascii "GET /a") (by decide) (by decide), .eintr,
        .data (ascii " HTTP/1.1\r\nHost: x\r\n\r\n") (by decide) (by decide), .eagain]
    else if fd = 6 then [.data (ascii "GET /b") (by decide) (by decide), .eagain]
    else []

theorem no_leak_two_clients :
    ∃ s, (∃ outcome, readClientRequests twoClients 6 = .ok (outcome, s)) ∧
      s.static.readCnt ≤ 0 ∧
      ∃ requestHead1 s' consumed, readRequest s 5 = some (requestHead1, s') ∧
        s'.static.readCnt ≤ 0 ∧ s.input 5 = consumed ++ s'.input 5 ∧
        ∀ line, requestHead1 = some line → line <+: delivered consumed := by
  have hok : (readClientRequests twoClients 6).toOption.isSome = true := by decide +kernel
  cases hcall : readClientRequests twoClients 6 with
  | error e =>
    rw [hcall] at hok
    cases hok
  | ok r =>
    have hs : server.Reachable r.2 := .step (.init (s := twoClients) rfl) ⟨r.1, hcall⟩
    obtain ⟨hidle, line, s', consumed, hread, hidle', -, hin, hline, -⟩ := no_leak hs 5
    exact ⟨r.2, ⟨r.1, rfl⟩, hidle, line, s', consumed, hread, hidle', hin, hline⟩

end WebServer
end UnixNetwork
