import UnixNetwork.WebServer.Isolation

/-!
# Which requests stop the epoll server?

`read_client_requests` takes three pieces off what `split` returns, the first character
off the path, and two digits behind each `%`, and asks in no case whether they are
there.  `survives_iff` says which requests it gets through: those whose first line is
`WellFormed`.

The first line is what `Readline` stored, up to a NUL.  It depends on what the client has
sent (`Sent`) and on what comes behind that: on an end of file `Readline` hands over an
unfinished line, on an error it does not.  `requestLine` says which line it is.
-/

namespace UnixNetwork
namespace WebServer

open Bytes

/-! ## The first line -/

/-- What `read` says when there is nothing to be read: end of file, or an error. -/
def Stops (ended : Bool) : List ReadResult → Prop
  | [] => ended = true
  | .eof :: _ => ended = true
  | .eagain :: _ => ended = false
  | .fail :: _ => ended = false
  | _ => False

/-- All that the client has sent, buffered or in results still to come, is `stream`;
behind it is an end of file or an error. -/
def Sent (fd : Fd) (s : State) (stream : List UInt8) (ended : Bool) : Prop :=
  ∃ pieces rest, s.input fd = pieces ++ rest ∧ (∀ r ∈ pieces, r.Flows) ∧ Stops ended rest ∧
    s.static.pending ++ delivered pieces = stream

/-- The line that `read_client_requests` goes on with, if there is one. -/
def requestLine (stream : List UInt8) (ended : Bool) : Option (List UInt8) :=
  if (10 : UInt8) ∈ stream ∨ 1499 ≤ stream.length then some (takeLine 1499 stream)
  else if ended = true ∧ stream ≠ [] then some stream
  else none

theorem Sent.has {fd : Fd} {s : State} {stream : List UInt8} {ended : Bool}
    (h : Sent fd s stream ended) : Has fd s stream := by
  obtain ⟨pieces, rest, hin, hflow, -, hbytes⟩ := h
  exact ⟨pieces, rest, hin, hflow, hbytes⟩

/-- The `again` loop, where nothing is left. -/
theorem again_stops (m : MyRead) {pieces rest : List ReadResult} {ended : Bool}
    (hflow : ∀ r ∈ pieces, r.Flows) (hnil : delivered pieces = []) (hstops : Stops ended rest) :
    ∃ m', (again m (pieces ++ rest)).1 = .stop (if ended then .zero else .error) m' := by
  induction pieces generalizing m with
  | nil =>
    cases rest with
    | nil =>
      cases hstops
      exact ⟨_, rfl⟩
    | cons result rest =>
      cases result with
      | data bytes hne hlen => exact hstops.elim
      | eintr => exact hstops.elim
      | eof =>
        cases hstops
        exact ⟨_, rfl⟩
      | eagain =>
        cases hstops
        exact ⟨_, rfl⟩
      | fail =>
        cases hstops
        exact ⟨_, rfl⟩
  | cons result pieces ih =>
    have hflow' : ∀ r ∈ pieces, r.Flows := fun r hr => hflow r (List.mem_cons_of_mem _ hr)
    cases result with
    | data bytes hne hlen =>
      have happ : bytes ++ delivered pieces = [] := hnil
      exact absurd (List.append_eq_nil_iff.mp happ).1 hne
    | eintr => exact ih _ hflow' hnil
    | eof => exact (hflow _ List.mem_cons_self).elim
    | eagain => exact (hflow _ List.mem_cons_self).elim
    | fail => exact (hflow _ List.mem_cons_self).elim

/-- `my_read`, where nothing is left. -/
theorem myRead_stops {fd : Fd} {s : State} {ended : Bool} (h : Sent fd s [] ended) :
    (myRead s fd).1 = if ended then .zero else .error := by
  obtain ⟨pieces, rest, hin, hflow, hstops, hbytes⟩ := h
  obtain ⟨hpending, hnil⟩ := List.append_eq_nil_iff.mp hbytes
  unfold myRead
  split
  · rename_i hcnt
    rw [s.static.pending_eq_cons hcnt] at hpending
    cases hpending
  · obtain ⟨m', hm'⟩ := again_stops s.static hflow hnil hstops
    rw [← hin] at hm'
    split
    · rename_i heq
      rw [heq] at hm'
      exact (Again.stop.inj hm').1
    · rename_i heq
      rw [heq] at hm'
      cases hm'

/-- `my_read`, where something is left. -/
theorem Sent.myRead {fd : Fd} {s : State} {c : UInt8} {stream : List UInt8} {ended : Bool}
    (h : Sent fd s (c :: stream) ended) :
    ∃ s', WebServer.myRead s fd = (.one c, s') ∧ Sent fd s' stream ended := by
  obtain ⟨pieces, rest, hin, hflow, hstops, hbytes⟩ := h
  obtain ⟨s', pieces', hread, hin', hflow', hbytes'⟩ := myRead_pieces hin hflow hbytes
  exact ⟨s', hread, pieces', rest, hin', hflow', hstops, hbytes'⟩

/-- The loop of `Readline`, on a stream that ends before the line does. -/
theorem readlineLoop_sent {fd : Fd} (k : ℕ) (stored : List UInt8) {s : State}
    {stream : List UInt8} {ended : Bool} (h : Sent fd s stream ended)
    (hnl : (10 : UInt8) ∉ stream) (hlen : stream.length < k) :
    (readlineLoop fd k stored s).1 =
      ⟨if ended then ((stored ++ stream).length : ℤ) else -1, stored ++ stream⟩ := by
  induction k generalizing stored s stream with
  | zero => exact absurd hlen (Nat.not_lt_zero _)
  | succ k ih =>
    cases stream with
    | nil =>
      have hstop := myRead_stops h
      rw [readlineLoop, List.append_nil]
      rcases hread : WebServer.myRead s fd with ⟨rc, s'⟩
      rw [hread] at hstop
      dsimp only at hstop
      rw [hstop]
      cases ended <;> rfl
    | cons c stream =>
      rw [List.mem_cons, not_or] at hnl
      obtain ⟨s', hread, hs'⟩ := h.myRead
      rw [readlineLoop, hread]
      dsimp only
      rw [if_neg (Ne.symm hnl.1), ih (stored ++ [c]) hs' hnl.2 (Nat.lt_of_succ_lt_succ hlen),
        List.append_assoc, List.singleton_append]

/-- **The line a request is read from.** -/
theorem readRequest_sent {fd : Fd} {s : State} {stream : List UInt8} {ended : Bool}
    (h : Sent fd s stream ended) :
    ∃ s', readRequest s fd = some ((requestLine stream ended).map cstr, s') := by
  unfold requestLine
  by_cases hline : (10 : UInt8) ∈ stream ∨ 1499 ≤ stream.length
  · rw [if_pos hline]
    exact readRequest_has h.has hline
  · rw [if_neg hline]
    rw [not_or, not_le] at hline
    have hread : (readline s fd readBufferSize).1 =
        ⟨if ended then (stream.length : ℤ) else -1, stream⟩ :=
      readlineLoop_sent 1499 [] h hline.1 hline.2
    by_cases hwhole : ended = true ∧ stream ≠ []
    · rw [if_pos hwhole]
      have hpos : 0 < (readline s fd readBufferSize).1.ret := by
        rw [hread, hwhole.1]
        exact Int.natCast_pos.mpr (List.length_pos_iff.mpr hwhole.2)
      have hrequest := readRequest_of_pos hpos
      rwa [hread] at hrequest
    · rw [if_neg hwhole]
      -- nothing before an end of file, or an error: the descriptor is closed
      have hret : (readline s fd readBufferSize).1.ret ≤ 0 := by
        rw [hread]
        cases ended with
        | false => exact (by decide : (-1 : ℤ) ≤ 0)
        | true =>
          have hnil : stream = [] := by
            by_contra hne
            exact hwhole ⟨rfl, hne⟩
          rw [hnil]
          exact le_rfl
      refine ⟨(readline s fd readBufferSize).2, ?_⟩
      unfold readRequest
      dsimp only
      rcases lt_or_eq_of_le hret with hneg | hzero
      · rw [if_pos hneg]
        rfl
      · rw [if_neg (not_lt.mpr hzero.ge), if_pos hzero]
        rfl

/-! ## Lines that are got through -/

/-- **The missing checks**: the line has at least three pieces, and if it asks for a file,
the path has a first character and behind it no `%` without two digits. -/
def WellFormed (line : List UInt8) : Prop :=
  match line.splitOn 32 with
  | method :: path :: _ :: _ =>
    method.map toLower = ascii "get" → path ≠ [] ∧ malformed (path.drop 1) = false
  | _ => False

/-- The path of a well-formed line is got through. -/
theorem stringFile_ok_iff (path : List UInt8) :
    (∃ file, stringFile path = .ok file) ↔ path ≠ [] ∧ malformed (path.drop 1) = false := by
  cases path with
  | nil => simp [stringFile]
  | cons c raw =>
    have hok : malformed raw = false ↔ ∃ decoded, urlDecode raw = .ok decoded := by
      rw [← Bool.not_eq_true, malformed_iff]
      cases urlDecode raw <;> simp
    simp only [stringFile_cons, List.drop_succ_cons, List.drop_zero, hok]
    simp

theorem parseRequest_ok_iff (line : List UInt8) :
    (∃ r, parseRequest line = .ok r) ↔ WellFormed line := by
  by_cases hline : line = []
  · subst hline
    simp [parseRequest, split, WellFormed]
  · have hspace : ascii " " = [32] := by decide
    rw [parseRequest, WellFormed, hspace, split_eq 32 hline]
    rcases line.splitOn 32 with _ | ⟨method, _ | ⟨path, _ | ⟨version, rest⟩⟩⟩
    · simp
    · simp
    · simp
    · dsimp only
      by_cases hget : method.map toLower = ascii "get"
      · rw [if_pos hget, ← stringFile_ok_iff]
        cases stringFile path <;> simp [Except.map, hget]
      · rw [if_neg hget]
        simp [hget]

/-- **Which requests are got through.**  Whatever bytes a client has sent, in whatever
pieces they are read, and whatever comes behind them: `read_client_requests` comes to its
end exactly if the line it goes on with, if any, is well formed. -/
theorem survives_iff {fd : Fd} {s : State} {stream : List UInt8} {ended : Bool}
    (h : Sent fd s stream ended) :
    (∃ outcome s', readClientRequests s fd = .ok (outcome, s')) ↔
      ∀ line, requestLine stream ended = some line → WellFormed (cstr line) := by
  obtain ⟨s', hread⟩ := readRequest_sent h
  unfold readClientRequests
  rw [hread]
  cases requestLine stream ended with
  | none => simp
  | some line =>
    have hparse := parseRequest_ok_iff (cstr line)
    simp only [Option.map_some, Option.some.injEq, forall_eq', ← hparse]
    rcases parseRequest (cstr line) with e | _ | file <;> simp

theorem sent_sending (fd : Fd) {bytes : List UInt8} (hne : bytes ≠ []) (hlen : bytes.length ≤ 100) :
    Sent fd (sending bytes hne hlen) bytes false :=
  ⟨[.data bytes hne hlen], [.eagain], rfl, by simp [ReadResult.Flows], rfl,
    by simp [sending, MyRead.start, MyRead.pending, delivered, ReadResult.bytes]⟩

theorem survives_post : ∃ outcome s',
    readClientRequests (sending (ascii "POST / HTTP/1.1\r\n\r\n") (by decide) (by decide)) 5 =
      .ok (outcome, s') := by
  refine (survives_iff (sent_sending 5 _ _)).mpr fun line hline => ?_
  have hpost : requestLine (ascii "POST / HTTP/1.1\r\n\r\n") false =
      some (ascii "POST / HTTP/1.1\r\n") := by decide +kernel
  obtain rfl := Option.some.inj (hpost.symm.trans hline)
  intro hget
  exact absurd hget (by decide)

/-- A line without spaces, an empty path, and a percent sign at the end of a path: an index
out of range, an exception, and a failing assertion. -/
theorem not_survives :
    (readClientRequests (sending (ascii "hello\r\n") (by decide) (by decide)) 5).map Prod.fst =
      .error .outOfBounds ∧
    (readClientRequests (sending (ascii "GET  HTTP/1.1\r\n") (by decide) (by decide)) 5).map Prod.fst =
      .error .outOfRange ∧
    (readClientRequests (sending (ascii "GET /% HTTP/1.1\r\n") (by decide) (by decide)) 5).map Prod.fst =
      .error .assertion := by
  decide +kernel

end WebServer
end UnixNetwork
