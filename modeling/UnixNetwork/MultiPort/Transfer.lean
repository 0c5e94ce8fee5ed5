import UnixNetwork.MultiPort.Server
import UnixNetwork.WebServer.Transfer

/-!
# `nRecv` and `nSend`

The two transfer functions of `mul_port_client_epoll/server_mulport_epoll.c`, as loops over
what `recv`, `send` and `poll` give.  A round of `nSend` is a `poll` and then a `send`, one
of `nRecv` a `recv` and then, unless bytes came or the connection is over, a `poll`.

`recvStep_proc` and `pollStep_proc` tie `nRecv` to the server: the two parts of a round are
what a thread does in `recvStep` and in `pollStep`.

`nRecv` leaves its loop after a `recv` that returned `0`, but not after one that failed.  The
error code then stays in `ret_code` while the loop goes on, so that it can end in another
code, with more bytes, or not at all; a `poll` that failed leaves its code behind in the same
way.  `Harmless` says when this makes no difference, and `nRecv_reports_iff` that it is just
then that `nRecv` reports what happened.
-/

namespace UnixNetwork
namespace MultiPort

open Progress Multiplex
open WebServer (CallResult)

/-! ## `nSend` -/

namespace NSend

/-- Where the loop is, with the bytes that `send` took. -/
structure State where
  wrotelen : ℕ
  sent : List UInt8

/-- `while (wrotelen < length)`, and what follows it. -/
def loop (length : ℕ) (s : State) : Progress State (ℤ × List UInt8) :=
  if s.wrotelen < length then .running s else .returned (s.wrotelen, s.sent)

/-- One round.  A `continue` goes on to the condition of the loop. -/
def body (buffer : List UInt8) (s : State) :
    PollResult × CallResult → Progress State (ℤ × List UInt8)
  | (.hup, _) => .returned (-1, s.sent)
  | (.fail errno, _) => if errno = EINTR then loop buffer.length s else .returned (-1, s.sent)
  | (.timeout, _) => .returned (-1, s.sent)
  | (.ready, .fail _) => .returned (s.wrotelen, s.sent)
  | (.ready, .moves most) =>
    let writeret := min most (buffer.length - s.wrotelen)
    if writeret = 0 then .returned (s.wrotelen, s.sent)
    else
      loop buffer.length ⟨s.wrotelen + writeret, s.sent ++ (buffer.drop s.wrotelen).take writeret⟩

/-- What was sent is what `wrotelen` has passed. -/
structure Inv (buffer : List UInt8) (s : State) : Prop where
  wrotelen_le : s.wrotelen ≤ buffer.length
  sent_eq : s.sent = buffer.take s.wrotelen

theorem Inv.move {buffer : List UInt8} {s : State} (h : Inv buffer s) {k : ℕ}
    (hk : k ≤ buffer.length - s.wrotelen) :
    Inv buffer ⟨s.wrotelen + k, s.sent ++ (buffer.drop s.wrotelen).take k⟩ where
  wrotelen_le := by
    have := h.wrotelen_le
    show s.wrotelen + k ≤ buffer.length
    omega
  sent_eq := by
    show s.sent ++ (buffer.drop s.wrotelen).take k = buffer.take (s.wrotelen + k)
    rw [h.sent_eq, List.take_add]

/-- What was sent is the front of the buffer, and as long as the number returned says. -/
def Holds (buffer : List UInt8) : Progress State (ℤ × List UInt8) → Prop
  | .running s => Inv buffer s
  | .returned (ret, sent) => sent <+: buffer ∧ (ret = sent.length ∨ ret = -1)

theorem Inv.returned {buffer : List UInt8} {s : State} (h : Inv buffer s) :
    Holds buffer (.returned (s.wrotelen, s.sent)) := by
  obtain ⟨hle, hsent⟩ := h
  refine ⟨hsent ▸ List.take_prefix _ _, .inl ?_⟩
  rw [hsent, List.length_take_of_le hle]

theorem Inv.failed {buffer : List UInt8} {s : State} (h : Inv buffer s) :
    Holds buffer (.returned (-1, s.sent)) :=
  ⟨h.sent_eq ▸ List.take_prefix _ _, .inr rfl⟩

theorem holds_loop {buffer : List UInt8} {s : State} (h : Inv buffer s) :
    Holds buffer (loop buffer.length s) := by
  unfold loop
  split
  · exact h
  · exact h.returned

theorem holds_body {buffer : List UInt8} {s : State} (h : Inv buffer s) :
    ∀ round, Holds buffer (body buffer s round)
  | (.hup, _) => h.failed
  | (.timeout, _) => h.failed
  | (.ready, .fail _) => h.returned
  | (.fail errno, _) => by
    simp only [body]
    split
    · exact holds_loop h
    · exact h.failed
  | (.ready, .moves most) => by
    simp only [body]
    split
    · exact h.returned
    · exact holds_loop (h.move (min_le_right _ _))

/-- The bytes that `send` took. -/
def sent : Progress State (ℤ × List UInt8) → List UInt8
  | .running s => s.sent
  | .returned (_, sent) => sent

theorem Holds.isPrefix {buffer : List UInt8} {p : Progress State (ℤ × List UInt8)}
    (h : Holds buffer p) : sent p <+: buffer := by
  cases p with
  | running s =>
    have hs : Inv buffer s := h
    show s.sent <+: buffer
    rw [hs.sent_eq]
    exact List.take_prefix _ _
  | returned r => exact h.1

end NSend

/-- `nSend(sockfd, buffer, length, flags)`, after so many rounds, for a buffer of `length` bytes. -/
def nSend (buffer : List UInt8) (σ : ℕ → PollResult × CallResult) (m : ℕ) :
    Progress NSend.State (ℤ × List UInt8) :=
  after (NSend.body buffer) (.running ⟨0, []⟩) σ m

theorem nSend_holds (buffer : List UInt8) (σ : ℕ → PollResult × CallResult) (m : ℕ) :
    NSend.Holds buffer (nSend buffer σ m) := by
  have h0 : NSend.Inv buffer ⟨0, []⟩ := ⟨Nat.zero_le _, List.take_zero.symm⟩
  exact after_invariant h0 (fun m s _ hs => NSend.holds_body hs _) m

/-- **Transfers are exact.**  `Writen` and `Readn` through short counts and interruptions,
`Writen` and `Readn` when a call fails, and `nSend` whatever `poll` and `send` give. -/
theorem transfers_exact :
    (∀ (data file : List UInt8) (σ : ℕ → CallResult), (∀ i, (σ i).Short) →
      {i | σ i = .fail EINTR}.Finite →
      ∃ m, ∀ k, m ≤ k →
        WebServer.writen data file σ k = .returned (data.length, file ++ data)) ∧
    (∀ (n : ℕ) (buf stream : List UInt8) (σ : ℕ → CallResult), (∀ i, (σ i).Short) →
      {i | σ i = .fail EINTR}.Finite →
      ∃ m, ∀ k, m ≤ k →
        WebServer.readn n buf stream σ k =
          .returned (WebServer.Readn.done buf stream (min n stream.length))) ∧
    (∀ (data file : List UInt8) (σ : ℕ → CallResult) (m : ℕ) (s : WebServer.Writen.State),
      WebServer.writen data file σ m = .running s → ¬ (σ m).Short →
      ∃ sent, WebServer.writen data file σ (m + 1) = .returned (-1, file ++ sent) ∧
        sent <+: data ∧ sent ≠ data) ∧
    (∀ (n : ℕ) (buf stream : List UInt8) (σ : ℕ → CallResult) (m errno : ℕ)
      (s : WebServer.Readn.State), WebServer.readn n buf stream σ m = .running s →
      σ m = .fail errno → errno ≠ EINTR →
      ∃ r, WebServer.readn n buf stream σ (m + 1) = .returned r ∧ r.ret = -1) ∧
    (∀ (buffer : List UInt8) (σ : ℕ → PollResult × CallResult) (m : ℕ),
      NSend.sent (nSend buffer σ m) <+: buffer ∧
      ∀ ret sent, nSend buffer σ m = .returned (ret, sent) → 0 ≤ ret → ret = sent.length) := by
  refine ⟨fun _ _ _ => WebServer.writen_of_short, fun n buf stream _ =>
    WebServer.readn_of_short n buf stream, fun _ _ _ _ _ => WebServer.writen_of_not_short,
    fun _ _ _ _ _ _ _ => WebServer.readn_of_fail, fun buffer σ m => ?_⟩
  have hholds := nSend_holds buffer σ m
  refine ⟨hholds.isPrefix, fun ret sent h hret => ?_⟩
  rw [h] at hholds
  obtain hlen | rfl := hholds.2
  · exact hlen
  · exact absurd hret (by decide)

/-- Three bytes, one at a time behind an interruption; the fourth call of `write` fails. -/
theorem transfers_exact_three :
    let slow : ℕ → CallResult := fun i => if i = 0 then .fail EINTR else .moves 1
    let full : ℕ → CallResult := fun i => if i < 2 then .moves 1 else .moves 0
    (∃ m, ∀ k, m ≤ k → WebServer.writen [1, 2, 3] [9] slow k = .returned (3, [9, 1, 2, 3])) ∧
    (∃ m, ∀ k, m ≤ k → WebServer.readn 2 [0, 0] [1, 2, 3] slow k = .returned ⟨2, [1, 2], [3]⟩) ∧
    (∃ sent, WebServer.writen [1, 2, 3] [9] full 3 = .returned (-1, [9] ++ sent) ∧
      sent <+: [1, 2, 3] ∧ sent ≠ [1, 2, 3]) ∧
    (∃ r, WebServer.readn 2 [0, 0] [1, 2, 3] (fun _ => .fail 5) 1 = .returned r ∧ r.ret = -1) ∧
    (NSend.sent (nSend [1, 2] (fun _ => (.ready, .moves 1)) 1) <+: [1, 2]) := by
  intro slow full
  have hshort : ∀ i, (slow i).Short := by
    intro i
    by_cases h : i = 0 <;> simp [slow, h, WebServer.CallResult.Short]
  have hfin : {i | slow i = .fail EINTR}.Finite := by
    refine (Set.finite_singleton 0).subset fun i hi => ?_
    by_contra hne
    have : ¬ i = 0 := hne
    simp [slow, this] at hi
  obtain ⟨hwriten, hreadn, hwritenFails, hreadnFails, hnSend⟩ := transfers_exact
  exact ⟨hwriten _ _ _ hshort hfin, hreadn _ _ _ _ hshort hfin,
    hwritenFails [1, 2, 3] [9] full 2 ⟨[9, 1, 2], 2, 1⟩ rfl (by decide),
    hreadnFails 2 [0, 0] [1, 2, 3] _ 0 5 ⟨[0, 0], [1, 2, 3], 0, 2⟩ rfl rfl (by decide),
    (hnSend _ _ 1).1⟩

/-! ## `nRecv` -/

/-- What `recv` gives.  Of the bytes it takes as many as are asked for. -/
inductive RecvResult where
  | data (bytes : List UInt8) (ne_nil : bytes ≠ [])
  | eof
  | fail (errno : ℕ)

/-- `EAGAIN`, which `EWOULDBLOCK` is too. -/
abbrev EAGAIN : ℕ := 11

/-- The errors of `recv` after which `nRecv` is to try again. -/
def Retry (errno : ℕ) : Prop := errno = EAGAIN ∨ errno = EINTR

instance (errno : ℕ) : Decidable (Retry errno) := inferInstanceAs (Decidable (_ ∨ _))

/-- `errno != 0 ? errno : EINTR`. -/
def errorCode (errno : ℕ) : ℕ := if errno ≠ 0 then errno else EINTR

theorem errorCode_ne_zero (errno : ℕ) : errorCode errno ≠ 0 := by
  unfold errorCode
  split
  · assumption
  · decide

namespace NRecv

/-- What is in the buffer, and `ret_code`. -/
structure State where
  data : List UInt8
  retCode : ℕ
  deriving DecidableEq

/-- A round up to `poll`: it goes on to `poll`, or that is not called. -/
inductive Turn where
  | poll (s : State)
  | over (p : Progress State State)

/-- `while (left_bytes > 0)`, and what follows it. -/
def loop (length : ℕ) (s : State) : Progress State State :=
  if s.data.length < length then .running s else .returned s

/-- The round up to `poll`. -/
def recv (length : ℕ) (s : State) : RecvResult → Turn
  | .data bytes _ =>
    .over (loop length { s with data := s.data ++ bytes.take (length - s.data.length) })
  | .fail errno => .poll (if Retry errno then s else { s with retCode := errorCode errno })
  | .eof => .over (.returned { s with retCode := ENOTCONN })

/-- The round from `poll` on. -/
def poll (length : ℕ) (s : State) : PollResult → Progress State State
  | .hup => .returned { s with retCode := ENOTCONN }
  | .fail errno =>
    if errno = EINTR then loop length s else loop length { s with retCode := errorCode errno }
  | .timeout => .returned { s with retCode := ETIMEDOUT }
  | .ready => loop length s

/-- One round. -/
def body (length : ℕ) (s : State) (round : RecvResult × PollResult) : Progress State State :=
  match recv length s round.1 with
  | .poll s' => poll length s' round.2
  | .over p => p

end NRecv

/-- `nRecv(sockfd, data, length, &count)`, after so many rounds.  `*count` is the number of
bytes in the buffer; `length` is 128 in both calls. -/
def nRecv (length : ℕ) (σ : ℕ → RecvResult × PollResult) (m : ℕ) :
    Progress NRecv.State NRecv.State :=
  after (NRecv.body length) (NRecv.loop length ⟨[], 0⟩) σ m

/-! ### In the server -/

/-- What `recv` gives a thread of the server. -/
def recvResult {n : ℕ} (s : State n) (fd : Fd) : RecvResult :=
  if fd ∉ s.clients then .fail EBADF
  else if h : (s.socket fd).received ≠ [] then .data (s.socket fd).received h
  else if (s.socket fd).error then .fail ECONNRESET
  else if (s.socket fd).eof then .eof
  else .fail EAGAIN

/-- Where a thread is when its loop is there. -/
def procOf (fd : Fd) : Progress NRecv.State NRecv.State → Proc
  | .running s => .recv fd s.data s.retCode
  | .returned s => .received fd s.data s.retCode

def procOfTurn (fd : Fd) : NRecv.Turn → Proc
  | .poll s => .poll fd s.data s.retCode
  | .over p => procOf fd p

theorem procOf_loop (fd : Fd) (s : NRecv.State) :
    procOf fd (NRecv.loop maxBuffer s) =
      if s.data.length < maxBuffer then .recv fd s.data s.retCode
      else .received fd s.data s.retCode := by
  unfold NRecv.loop
  split <;> rfl

section Server

variable {n : ℕ} {s s' : State n} {t : Thread n} {fd : Fd} {data : List UInt8} {retCode : ℕ}

@[simp] theorem setProc_proc (s : State n) (t : Thread n) (p : Proc) :
    (s.setProc t p).proc t = p := Function.update_self _ _ _

/-- `recvStep` is the round up to `poll`. -/
theorem recvStep_proc (hp : s.proc t = .recv fd data retCode) (h : recvStep s t = some s') :
    s'.proc t = procOfTurn fd (NRecv.recv maxBuffer ⟨data, retCode⟩ (recvResult s fd)) := by
  unfold recvStep at h
  rw [hp] at h
  unfold recvResult
  simp only at h
  by_cases hclosed : fd ∉ s.clients
  · rw [if_pos hclosed] at h ⊢
    rw [← Option.some.inj h, setProc_proc]
    rfl
  rw [if_neg hclosed] at h ⊢
  by_cases hsome : (s.socket fd).received ≠ []
  · rw [if_pos hsome] at h
    rw [dif_pos hsome, ← Option.some.inj h, setProc_proc]
    exact (procOf_loop fd
      ⟨data ++ (s.socket fd).received.take (maxBuffer - data.length), retCode⟩).symm
  rw [if_neg hsome] at h
  rw [dif_neg hsome]
  by_cases herror : (s.socket fd).error = true
  · rw [if_pos herror] at h ⊢
    rw [← Option.some.inj h, setProc_proc]
    rfl
  rw [if_neg herror] at h ⊢
  by_cases heof : (s.socket fd).eof = true
  · rw [if_pos heof] at h ⊢
    rw [← Option.some.inj h, setProc_proc]
    rfl
  rw [if_neg heof] at h ⊢
  rw [← Option.some.inj h, setProc_proc]
  rfl

/-- `pollStep` is the round from `poll` on. -/
theorem pollStep_proc {result : PollResult} (hp : s.proc t = .poll fd data retCode)
    (hlt : data.length < maxBuffer) (h : pollStep s t result = some s') :
    s'.proc t = procOf fd (NRecv.poll maxBuffer ⟨data, retCode⟩ result) := by
  have hloop : ∀ code, procOf fd (NRecv.loop maxBuffer ⟨data, code⟩) = .recv fd data code :=
    fun code => (procOf_loop fd _).trans (if_pos hlt)
  unfold pollStep at h
  rw [hp] at h
  simp only [Option.ite_none_right_eq_some] at h
  obtain ⟨-, h⟩ := h
  cases result with
  | hup | timeout =>
    rw [← Option.some.inj h, setProc_proc]
    rfl
  | ready =>
    rw [← Option.some.inj h, setProc_proc]
    exact (hloop retCode).symm
  | fail errno =>
    simp only [NRecv.poll, apply_ite (procOf fd), hloop]
    simp only at h
    split at h <;> rename_i he <;> rw [← Option.some.inj h, setProc_proc]
    · rw [if_pos he]
    · rw [if_neg he]
      rfl

end Server

/-! ### Rounds -/

abbrev Round := RecvResult × PollResult

namespace NRecv

/-- A round in which nothing came and after which the loop goes on. -/
def Idle (round : Round) : Prop :=
  (∃ errno, round.1 = .fail errno) ∧ (round.2 = .ready ∨ ∃ errno, round.2 = .fail errno)

/-- A round with a `break`, and the code it sets. -/
def Leaves (round : Round) (code : ℕ) : Prop :=
  round.1 = .eof ∧ code = ENOTCONN ∨
    (∃ errno, round.1 = .fail errno) ∧
      (round.2 = .hup ∧ code = ENOTCONN ∨ round.2 = .timeout ∧ code = ETIMEDOUT)

/-- A round in which a call failed for good, without a `break`. -/
def Spoils (round : Round) : Prop :=
  ∃ errno, round.1 = .fail errno ∧
    (¬ Retry errno ∨ ∃ errno', round.2 = .fail errno' ∧ errno' ≠ EINTR)

theorem Leaves.ne_zero {round : Round} {code : ℕ} (h : Leaves round code) : code ≠ 0 := by
  obtain ⟨-, rfl⟩ | ⟨-, ⟨-, rfl⟩ | ⟨-, rfl⟩⟩ := h <;> decide

theorem Idle.not_data {round : Round} (h : Idle round) {bytes : List UInt8} {hne : bytes ≠ []} :
    round.1 ≠ .data bytes hne := by
  obtain ⟨⟨errno, herr⟩, -⟩ := h
  rw [herr]
  exact fun h => nomatch h

theorem Leaves.not_data {round : Round} {code : ℕ} (h : Leaves round code) {bytes : List UInt8}
    {hne : bytes ≠ []} : round.1 ≠ .data bytes hne := by
  obtain ⟨heof, -⟩ | ⟨⟨errno, herr⟩, -⟩ := h
  · rw [heof]
    exact fun h => nomatch h
  · rw [herr]
    exact fun h => nomatch h

theorem loop_running {length : ℕ} {s : State} (h : s.data.length < length) :
    loop length s = .running s := if_pos h

/-- Bytes came. -/
theorem body_data {length : ℕ} {s : State} (h : s.data.length < length) {bytes : List UInt8}
    (hne : bytes ≠ []) (result : PollResult) :
    ∃ s', s'.retCode = s.retCode ∧ s.data.length < s'.data.length ∧
      (body length s (.data bytes hne, result) = .running s' ∧
          s'.data.length = s.data.length + bytes.length ∧
          s.data.length + bytes.length < length ∨
        body length s (.data bytes hne, result) = .returned s' ∧ s'.data.length = length ∧
          length ≤ s.data.length + bytes.length) := by
  have hpos := List.length_pos_iff.mpr hne
  have hlen : (s.data ++ bytes.take (length - s.data.length)).length =
      s.data.length + min (length - s.data.length) bytes.length := by
    rw [List.length_append, List.length_take]
  refine ⟨⟨s.data ++ bytes.take (length - s.data.length), s.retCode⟩, rfl, ?_, ?_⟩
  · show s.data.length < (s.data ++ bytes.take (length - s.data.length)).length
    omega
  · show loop length _ = _ ∧ _ ∨ loop length _ = _ ∧ _ ∧ _
    unfold loop
    by_cases hmore : s.data.length + bytes.length < length
    · refine .inl ⟨if_pos (by rw [hlen]; omega), ?_, hmore⟩
      show (s.data ++ bytes.take (length - s.data.length)).length = s.data.length + bytes.length
      omega
    · refine .inr ⟨if_neg (by rw [hlen]; omega), ?_, by omega⟩
      show (s.data ++ bytes.take (length - s.data.length)).length = length
      omega

/-- Up to `poll`, when nothing came. -/
theorem recv_fail (length : ℕ) (s : State) (errno : ℕ) :
    ∃ s', recv length s (.fail errno) = .poll s' ∧ s'.data = s.data ∧
      (s'.retCode = 0 ↔ s.retCode = 0 ∧ Retry errno) := by
  by_cases hretry : Retry errno
  · exact ⟨s, congrArg Turn.poll (if_pos hretry), rfl, by simp [hretry]⟩
  · exact ⟨_, congrArg Turn.poll (if_neg hretry), rfl, by simp [hretry, errorCode_ne_zero]⟩

/-- From `poll` on, when the loop goes on. -/
theorem poll_idle {length : ℕ} {s : State} (h : s.data.length < length) {result : PollResult}
    (hresult : result = .ready ∨ ∃ errno, result = .fail errno) :
    ∃ s', poll length s result = .running s' ∧ s'.data = s.data ∧
      (s'.retCode = 0 ↔ s.retCode = 0 ∧ ∀ errno, result = .fail errno → errno = EINTR) := by
  obtain rfl | ⟨errno, rfl⟩ := hresult
  · exact ⟨s, loop_running h, rfl, by simp⟩
  · by_cases he : errno = EINTR
    · exact ⟨s, (if_pos he).trans (loop_running h), rfl, by simp [he]⟩
    · exact ⟨{ s with retCode := errorCode errno }, (if_neg he).trans (loop_running h), rfl,
        by simp [he, errorCode_ne_zero]⟩

/-- Nothing came. -/
theorem body_idle {length : ℕ} {s : State} (h : s.data.length < length) {round : Round}
    (hidle : Idle round) :
    ∃ s', body length s round = .running s' ∧ s'.data = s.data ∧
      (s'.retCode = 0 ↔ s.retCode = 0 ∧ ¬ Spoils round) := by
  obtain ⟨received, result⟩ := round
  obtain ⟨⟨errno, rfl⟩, hresult⟩ := hidle
  obtain ⟨s₁, hrecv, hdata₁, hcode₁⟩ := recv_fail length s errno
  obtain ⟨s₂, hpoll, hdata₂, hcode₂⟩ := poll_idle (hdata₁ ▸ h) hresult
  have hspoils : ¬ Spoils (.fail errno, result) ↔
      Retry errno ∧ ∀ errno', result = .fail errno' → errno' = EINTR := by
    simp [Spoils]
  refine ⟨s₂, ?_, hdata₂.trans hdata₁, ?_⟩
  · simp only [body, hrecv]
    exact hpoll
  · rw [hcode₂, hcode₁, hspoils, and_assoc]

/-- The loop is left by a `break`. -/
theorem body_leaves {length code : ℕ} {s : State} {round : Round} (h : Leaves round code) :
    body length s round = .returned ⟨s.data, code⟩ := by
  obtain ⟨received, result⟩ := round
  obtain ⟨rfl, rfl⟩ | ⟨⟨errno, rfl⟩, hresult⟩ := h
  · rfl
  · obtain ⟨s₁, hrecv, hdata₁, -⟩ := recv_fail length s errno
    simp only [body, hrecv, ← hdata₁]
    obtain ⟨rfl, rfl⟩ | ⟨rfl, rfl⟩ := hresult <;> rfl

/-- The kinds of rounds. -/
theorem round_cases (round : Round) :
    (∃ bytes hne, round.1 = .data bytes hne) ∨ Idle round ∨ ∃ code, Leaves round code := by
  obtain ⟨received, result⟩ := round
  cases received with
  | data bytes hne => exact .inl ⟨bytes, hne, rfl⟩
  | eof => exact .inr (.inr ⟨_, .inl ⟨rfl, rfl⟩⟩)
  | fail errno =>
    cases result with
    | hup => exact .inr (.inr ⟨_, .inr ⟨⟨errno, rfl⟩, .inl ⟨rfl, rfl⟩⟩⟩)
    | timeout => exact .inr (.inr ⟨_, .inr ⟨⟨errno, rfl⟩, .inr ⟨rfl, rfl⟩⟩⟩)
    | ready => exact .inr (.inl ⟨⟨errno, rfl⟩, .inl rfl⟩)
    | fail errno' => exact .inr (.inl ⟨⟨errno, rfl⟩, .inr ⟨errno', rfl⟩⟩)

/-- How many bytes `recv` gives in a round. -/
def size : RecvResult → ℕ
  | .data bytes _ => bytes.length
  | _ => 0

/-- The bytes of the first rounds. -/
def arrived (σ : ℕ → Round) : ℕ → ℕ
  | 0 => 0
  | m + 1 => arrived σ m + size (σ m).1

/-- The rounds before this one neither filled the buffer nor had a `break`. -/
def Open (length : ℕ) (σ : ℕ → Round) (m : ℕ) : Prop :=
  arrived σ m < length ∧ ∀ i, i < m → ∀ code, ¬ Leaves (σ i) code

theorem Idle.size_eq_zero {round : Round} (h : Idle round) : size round.1 = 0 := by
  obtain ⟨⟨errno, herr⟩, -⟩ := h
  rw [herr]
  rfl

theorem Open.of_succ {length : ℕ} {σ : ℕ → Round} {m : ℕ} (h : Open length σ (m + 1)) :
    Open length σ m := by
  obtain ⟨hlt, hstay⟩ := h
  rw [arrived] at hlt
  exact ⟨by omega, fun i hi => hstay i (hi.trans m.lt_succ_self)⟩

/-- The bytes in the buffer, before a round or behind the last one. -/
def dataOf : Progress State State → List UInt8
  | .running s => s.data
  | .returned s => s.data

end NRecv

/-! ### Runs -/

section Runs

variable {length : ℕ} {σ : ℕ → Round}

/-- The loop runs on only while the buffer is not full. -/
theorem length_lt_of_running {m : ℕ} {s : NRecv.State} (h : nRecv length σ m = .running s) :
    s.data.length < length := by
  let P : Progress NRecv.State NRecv.State → Prop := fun p =>
    ∀ s, p = .running s → s.data.length < length
  have hloop : ∀ t, P (NRecv.loop length t) := by
    intro t s ht
    obtain ⟨hlt, rfl⟩ := ite_eq_running_iff.mp ht
    exact hlt
  have hall : P (nRecv length σ m) := by
    refine after_invariant (hloop _) (fun m s _ hs s' h' => ?_) m
    have hlt := hs s rfl
    obtain ⟨bytes, hne, hdata⟩ | hidle | ⟨code, hleaves⟩ := NRecv.round_cases (σ m)
    · rw [show σ m = (.data bytes hne, (σ m).2) from Prod.ext hdata rfl] at h'
      exact hloop _ _ h'
    · obtain ⟨t, ht, hsame, -⟩ := NRecv.body_idle hlt hidle
      cases ht.symm.trans h'
      rwa [hsame]
    · cases (NRecv.body_leaves hleaves).symm.trans h'
  exact hall s h

theorem nRecv_succ_of_data {m : ℕ} {s : NRecv.State} (h : nRecv length σ m = .running s)
    {bytes : List UInt8} {hne : bytes ≠ []} (hdata : (σ m).1 = .data bytes hne) :
    ∃ s', s'.retCode = s.retCode ∧ s.data.length < s'.data.length ∧
      (nRecv length σ (m + 1) = .running s' ∧
          s'.data.length = s.data.length + bytes.length ∧
          s.data.length + bytes.length < length ∨
        nRecv length σ (m + 1) = .returned s' ∧ s'.data.length = length ∧
          length ≤ s.data.length + bytes.length) := by
  have hround : σ m = (.data bytes hne, (σ m).2) := Prod.ext hdata rfl
  have hsucc : nRecv length σ (m + 1) = NRecv.body length s (.data bytes hne, (σ m).2) :=
    (after_succ h).trans (congrArg (NRecv.body length s) hround)
  rw [hsucc]
  exact NRecv.body_data (length_lt_of_running h) hne _

theorem nRecv_succ_of_idle {m : ℕ} {s : NRecv.State} (h : nRecv length σ m = .running s)
    (hidle : NRecv.Idle (σ m)) :
    ∃ s', nRecv length σ (m + 1) = .running s' ∧ s'.data = s.data ∧
      (s'.retCode = 0 ↔ s.retCode = 0 ∧ ¬ NRecv.Spoils (σ m)) := by
  have hsucc : nRecv length σ (m + 1) = NRecv.body length s (σ m) := after_succ h
  rw [hsucc]
  exact NRecv.body_idle (length_lt_of_running h) hidle

theorem nRecv_succ_of_leaves {m code : ℕ} {s : NRecv.State} (h : nRecv length σ m = .running s)
    (hleaves : NRecv.Leaves (σ m) code) :
    nRecv length σ (m + 1) = .returned ⟨s.data, code⟩ :=
  (after_succ h).trans (NRecv.body_leaves hleaves)

/-- What is in the buffer while the loop runs, and why it runs. -/
theorem open_of_running {m : ℕ} {s : NRecv.State} (h : nRecv length σ m = .running s) :
    s.data.length = NRecv.arrived σ m ∧ NRecv.Open length σ m := by
  have hdata : s.data.length = NRecv.arrived σ m := by
    induction m generalizing s with
    | zero =>
      obtain ⟨-, rfl⟩ := ite_eq_running_iff.mp h
      rfl
    | succ m ih =>
      obtain ⟨t, ht⟩ := running_of_le h m.le_succ
      rw [NRecv.arrived, ← ih ht]
      obtain ⟨bytes, hne, hdata⟩ | hidle | ⟨code, hleaves⟩ := NRecv.round_cases (σ m)
      · obtain ⟨s', -, -, ⟨hs', hlen, -⟩ | ⟨hs', -⟩⟩ := nRecv_succ_of_data ht hdata
        · cases hs'.symm.trans h
          rw [hlen, hdata]
          rfl
        · cases hs'.symm.trans h
      · obtain ⟨s', hs', hsame, -⟩ := nRecv_succ_of_idle ht hidle
        cases hs'.symm.trans h
        rw [hsame, hidle.size_eq_zero, Nat.add_zero]
      · cases (nRecv_succ_of_leaves ht hleaves).symm.trans h
  refine ⟨hdata, hdata ▸ length_lt_of_running h, fun i hi code hleaves => ?_⟩
  obtain ⟨t, ht⟩ := running_of_le h hi.le
  have hret := after_of_returned (nRecv_succ_of_leaves ht hleaves) hi
  cases hret.symm.trans h

/-- The loop runs as long as nothing ends it. -/
theorem running_of_open {m : ℕ} (h : NRecv.Open length σ m) :
    ∃ s, nRecv length σ m = .running s := by
  induction m with
  | zero => exact ⟨⟨[], 0⟩, NRecv.loop_running h.1⟩
  | succ m ih =>
    obtain ⟨s, hs⟩ := ih h.of_succ
    obtain ⟨bytes, hne, hdata⟩ | hidle | ⟨code, hleaves⟩ := NRecv.round_cases (σ m)
    · obtain ⟨s', -, -, ⟨hs', -⟩ | ⟨-, -, hfull⟩⟩ := nRecv_succ_of_data hs hdata
      · exact ⟨s', hs'⟩
      · -- with these bytes the buffer would be full
        have hlt := h.1
        rw [NRecv.arrived, hdata, ← (open_of_running hs).1] at hlt
        exact absurd hfull hlt.not_ge
    · obtain ⟨s', hs', -⟩ := nRecv_succ_of_idle hs hidle
      exact ⟨s', hs'⟩
    · exact absurd hleaves (h.2 m m.lt_succ_self code)

/-- Bytes that came stay. -/
theorem length_le_of_le {m k : ℕ} (hmk : m ≤ k) :
    (NRecv.dataOf (nRecv length σ m)).length ≤ (NRecv.dataOf (nRecv length σ k)).length := by
  induction k, hmk using Nat.le_induction with
  | base => exact le_rfl
  | succ k _ ih =>
    refine ih.trans ?_
    cases h : nRecv length σ k with
    | returned s => exact (congrArg (List.length ∘ NRecv.dataOf) (after_of_returned h k.le_succ)).ge
    | running s =>
      obtain ⟨bytes, hne, hdata⟩ | hidle | ⟨code, hleaves⟩ := NRecv.round_cases (σ k)
      · obtain ⟨s', -, hlt, ⟨hs', -⟩ | ⟨hs', -⟩⟩ := nRecv_succ_of_data h hdata <;> rw [hs'] <;>
          exact hlt.le
      · obtain ⟨s', hs', hsame, -⟩ := nRecv_succ_of_idle h hidle
        rw [hs']
        exact (congrArg List.length hsame).ge
      · rw [nRecv_succ_of_leaves h hleaves]
        exact le_rfl

/-- `ret_code` keeps that a call failed. -/
theorem retCode_eq_zero_iff {m : ℕ} {s : NRecv.State} (h : nRecv length σ m = .running s) :
    s.retCode = 0 ↔ ∀ i, i < m → ¬ NRecv.Spoils (σ i) := by
  induction m generalizing s with
  | zero =>
    obtain ⟨-, rfl⟩ := ite_eq_running_iff.mp h
    exact iff_of_true rfl fun i hi => absurd hi (Nat.not_lt_zero i)
  | succ m ih =>
    obtain ⟨t, ht⟩ := running_of_le h m.le_succ
    have hbefore := ih ht
    rw [Nat.forall_lt_succ_right, ← hbefore]
    obtain ⟨bytes, hne, hdata⟩ | hidle | ⟨code, hleaves⟩ := NRecv.round_cases (σ m)
    · have hspoils : ¬ NRecv.Spoils (σ m) := by
        rintro ⟨errno, herr, -⟩
        cases hdata.symm.trans herr
      obtain ⟨s', hcode, -, ⟨hs', -⟩ | ⟨hs', -⟩⟩ := nRecv_succ_of_data ht hdata
      · cases hs'.symm.trans h
        rw [hcode, and_iff_left hspoils]
      · cases hs'.symm.trans h
    · obtain ⟨s', hs', -, hcode⟩ := nRecv_succ_of_idle ht hidle
      cases hs'.symm.trans h
      exact hcode
    · cases (nRecv_succ_of_leaves ht hleaves).symm.trans h

/-- Idle rounds leave the loop running and the buffer as it is. -/
theorem running_of_idle {m k : ℕ} {s : NRecv.State} (h : nRecv length σ m = .running s)
    (hmk : m ≤ k) (hidle : ∀ i, m ≤ i → i < k → NRecv.Idle (σ i)) :
    ∃ s', nRecv length σ k = .running s' ∧ s'.data = s.data := by
  induction k, hmk using Nat.le_induction with
  | base => exact ⟨s, h, rfl⟩
  | succ k hmk ih =>
    obtain ⟨t, ht, hsame⟩ := ih fun i hi hik => hidle i hi (hik.trans k.lt_succ_self)
    obtain ⟨s', hs', hsame', -⟩ := nRecv_succ_of_idle ht (hidle k hmk k.lt_succ_self)
    exact ⟨s', hs', hsame'.trans hsame⟩

/-- What a loop that returns without more bytes has gone through. -/
theorem exists_leaves {m k : ℕ} {s s' : NRecv.State} (h : nRecv length σ m = .running s)
    (hmk : m ≤ k) (h' : nRecv length σ k = .returned s')
    (hlen : s'.data.length = s.data.length) :
    ∃ j, m ≤ j ∧ (∀ i, m ≤ i → i < j → NRecv.Idle (σ i)) ∧ NRecv.Leaves (σ j) s'.retCode := by
  obtain ⟨d, rfl⟩ := Nat.exists_eq_add_of_le hmk
  clear hmk
  induction d generalizing m s with
  | zero => cases h.symm.trans h'
  | succ d ih =>
    have hafter : nRecv length σ (m + 1 + d) = .returned s' := by
      rwa [Nat.add_right_comm]
    obtain ⟨bytes, hne, hdata⟩ | hidle | ⟨code, hleaves⟩ := NRecv.round_cases (σ m)
    · -- the bytes would be among those in the buffer in the end
      obtain ⟨t, -, hlt, ht⟩ := nRecv_succ_of_data h hdata
      have hstay : (NRecv.dataOf (nRecv length σ (m + 1))).length ≤
          (NRecv.dataOf (nRecv length σ (m + 1 + d))).length :=
        length_le_of_le (Nat.le_add_right (m + 1) d)
      rw [hafter] at hstay
      obtain ⟨ht, -⟩ | ⟨ht, -⟩ := ht <;> rw [ht] at hstay <;>
        exact absurd (hlt.trans_le hstay) (hlen ▸ lt_irrefl _)
    · obtain ⟨t, ht, hsame, -⟩ := nRecv_succ_of_idle h hidle
      obtain ⟨j, hj, hidles, hleaves⟩ := ih ht (hsame ▸ hlen) hafter
      refine ⟨j, Nat.le_of_succ_le hj, fun i hi hij => ?_, hleaves⟩
      obtain rfl | hlt := hi.eq_or_lt
      · exact hidle
      · exact hidles i hlt hij
    · have hret := after_of_returned (nRecv_succ_of_leaves h hleaves) (Nat.le_add_right (m + 1) d)
      cases hret.symm.trans hafter
      exact ⟨m, le_rfl, fun i hi him => absurd him hi.not_gt, hleaves⟩

end Runs

/-! ### What `nRecv` reports -/

/-- The code for a `recv` that found the connection over, or failed for good. -/
def RecvResult.over : RecvResult → Option ℕ
  | .data _ _ => none
  | .eof => some ENOTCONN
  | .fail errno => if Retry errno then none else some errno

/-- `nRecv` reports what happened: it returns the code of a `recv` that ended the connection,
with the bytes that came before, and its result is `0` just if all the bytes came. -/
def Reports (length : ℕ) (σ : ℕ → Round) : Prop :=
  (∀ m s code, nRecv length σ m = .running s → (σ m).1.over = some code →
    ∃ k s', nRecv length σ k = .returned s' ∧ s'.retCode = code ∧
      s'.data.length = s.data.length) ∧
  ∀ m s, nRecv length σ m = .returned s → (s.retCode = 0 ↔ s.data.length = length)

/-- When the missing `break`s make no difference: behind a `recv` that failed for good no bytes
come, and the loop is left by a `break` that happens to set the same code; and the buffer does
not fill up behind a `poll` that failed. -/
structure Harmless (length : ℕ) (σ : ℕ → Round) : Prop where
  recv_failed : ∀ m errno, NRecv.Open length σ m → (σ m).1 = .fail errno → ¬ Retry errno →
    ∃ k, m ≤ k ∧ (∀ i, m ≤ i → i < k → NRecv.Idle (σ i)) ∧ NRecv.Leaves (σ k) errno
  poll_failed : ∀ m, NRecv.Open length σ m → length ≤ NRecv.arrived σ (m + 1) →
    ∀ i, i < m → ∀ errno errno', σ i = (.fail errno, .fail errno') → errno' = EINTR

section Reports

variable {length : ℕ} {σ : ℕ → Round}

/-- A buffer fills up only when no call failed for good before. -/
theorem Harmless.not_spoils (h : Harmless length σ) {m : ℕ} {s : NRecv.State}
    (hs : nRecv length σ m = .running s) {bytes : List UInt8} {hne : bytes ≠ []}
    (hdata : (σ m).1 = .data bytes hne) (hfull : length ≤ s.data.length + bytes.length) {i : ℕ}
    (hi : i < m) : ¬ NRecv.Spoils (σ i) := by
  obtain ⟨hlen, hopen⟩ := open_of_running hs
  rintro ⟨errno, herr, hfatal | ⟨errno', hpoll, hne'⟩⟩
  · obtain ⟨t, ht⟩ := running_of_le hs hi.le
    obtain ⟨k, hik, hidle, hleaves⟩ := h.recv_failed i errno (open_of_running ht).2 herr hfatal
    obtain ⟨t', ht', -⟩ := running_of_idle ht hik hidle
    have hmk : m ≤ k := by
      by_contra hlt
      cases hs.symm.trans (after_of_returned (nRecv_succ_of_leaves ht' hleaves)
        (Nat.succ_le_of_lt (not_le.mp hlt)))
    obtain rfl | hlt := hmk.eq_or_lt
    · exact hleaves.not_data hdata
    · exact (hidle m hi.le hlt).not_data hdata
  · have hfull' : length ≤ NRecv.arrived σ (m + 1) := by
      rw [NRecv.arrived, ← hlen, hdata]
      exact hfull
    exact hne' (h.poll_failed m hopen hfull' i hi errno errno' (Prod.ext herr hpoll))

theorem Harmless.reports (h : Harmless length σ) : Reports length σ := by
  refine ⟨fun m s code hs hover => ?_, fun m s hs => ?_⟩
  · cases hrecv : (σ m).1 with
    | data bytes hne =>
      rw [hrecv] at hover
      cases hover
    | eof =>
      rw [hrecv] at hover
      cases hover
      exact ⟨m + 1, _, nRecv_succ_of_leaves hs (.inl ⟨hrecv, rfl⟩), rfl, rfl⟩
    | fail errno =>
      rw [hrecv] at hover
      obtain ⟨hfatal, rfl⟩ : ¬ Retry errno ∧ errno = code := by
        simpa [RecvResult.over] using hover
      obtain ⟨k, hmk, hidle, hleaves⟩ := h.recv_failed m errno (open_of_running hs).2 hrecv hfatal
      obtain ⟨t, ht, hsame⟩ := running_of_idle hs hmk hidle
      exact ⟨k + 1, _, nRecv_succ_of_leaves ht hleaves, rfl, congrArg List.length hsame⟩
  · induction m with
    | zero =>
      obtain ⟨hzero, rfl⟩ := ite_eq_returned_iff.mp hs
      exact iff_of_true rfl (Nat.eq_zero_of_not_pos hzero).symm
    | succ m ih =>
      cases hm : nRecv length σ m with
      | returned t => exact ih (hm.trans ((after_of_returned hm m.le_succ).symm.trans hs))
      | running t =>
        obtain ⟨bytes, hne, hdata⟩ | hidle | ⟨code, hleaves⟩ := NRecv.round_cases (σ m)
        · obtain ⟨s', hcode, -, ⟨hs', -⟩ | ⟨hs', hfull, hmore⟩⟩ := nRecv_succ_of_data hm hdata
          · cases hs'.symm.trans hs
          · cases hs'.symm.trans hs
            refine iff_of_true (hcode.trans ?_) hfull
            exact (retCode_eq_zero_iff hm).mpr fun i hi => h.not_spoils hm hdata hmore hi
        · obtain ⟨t', ht', -⟩ := nRecv_succ_of_idle hm hidle
          cases ht'.symm.trans hs
        · cases (nRecv_succ_of_leaves hm hleaves).symm.trans hs
          exact iff_of_false hleaves.ne_zero (length_lt_of_running hm).ne

theorem Reports.harmless (h : Reports length σ) : Harmless length σ where
  recv_failed m errno hopen herr hfatal := by
    obtain ⟨s, hs⟩ := running_of_open hopen
    have hover : (σ m).1.over = some errno := by
      rw [herr]
      exact if_neg hfatal
    obtain ⟨k, s', hs', rfl, hlen⟩ := h.1 m s errno hs hover
    have hmk : m ≤ k := by
      by_contra hlt
      cases hs.symm.trans (after_of_returned hs' (not_le.mp hlt).le)
    exact exists_leaves hs hmk hs' hlen
  poll_failed m hopen hfull i hi errno errno' hround := by
    by_contra hpoll
    obtain ⟨s, hs⟩ := running_of_open hopen
    have hlen := (open_of_running hs).1
    have hspoils : NRecv.Spoils (σ i) := by
      refine ⟨errno, ?_, .inr ⟨errno', ?_, hpoll⟩⟩ <;> rw [hround]
    rw [NRecv.arrived, ← hlen] at hfull
    cases hrecv : (σ m).1 with
    | data bytes hne =>
      rw [hrecv] at hfull
      obtain ⟨s', hcode, -, ⟨-, -, hless⟩ | ⟨hs', hall, -⟩⟩ := nRecv_succ_of_data hs hrecv
      · exact absurd hfull hless.not_ge
      · have hzero : s.retCode = 0 := hcode.symm.trans ((h.2 _ s' hs').mpr hall)
        exact (retCode_eq_zero_iff hs).mp hzero i hi hspoils
    | eof | fail _ =>
      -- no bytes, so the buffer would have been full before
      rw [hrecv] at hfull
      exact absurd hfull (length_lt_of_running hs).not_ge

end Reports

/-- **When `nRecv` reports what happened.** -/
theorem nRecv_reports_iff (length : ℕ) (σ : ℕ → Round) :
    Reports length σ ↔ Harmless length σ :=
  ⟨Reports.harmless, Harmless.reports⟩

/-- A worker that has a descriptor which another one has closed: `recv` fails with `EBADF`,
`poll` returns at once with `POLLNVAL`, and so on for ever. -/
theorem nRecv_loops_on : ¬ Reports maxBuffer fun _ => (.fail EBADF, .ready) := by
  intro h
  obtain ⟨k, hk, -, heof | ⟨-, ⟨hhup, -⟩ | ⟨htimeout, -⟩⟩⟩ :=
    h.harmless.recv_failed 0 EBADF ⟨by decide, fun i hi => absurd hi i.not_lt_zero⟩ rfl (by decide)
  · cases heof.1
  · cases hhup
  · cases htimeout

end MultiPort
end UnixNetwork
