import UnixNetwork.WebServer.Response

/-!
# Does a client get the whole response, and can it tell?

Two questions about the responses of the epoll server.

Where does a response end?  For a directory the server closes the connection; for a
file it sends a `Content-Length`, but only if the size of the file is positive as an
`int`; for a missing file it does neither.  `delimited_iff` is the exact list of the
responses whose end a client can find, among the requests that are answered at all: not
those that end the process.

Does the response arrive?  The socket is non-blocking, every `send` may take less than
it was given, and nothing is sent again.  `whole_iff` says that a file arrives exactly if
every `send` took everything: what is cut off one piece is not made up for by the
others, because no piece can give more than it has.
-/

namespace UnixNetwork
namespace WebServer

open Bytes

/-! ## Where a response ends -/

/-- The connection is closed when everything has been sent. -/
def Closes (effects : List Effect) : Prop :=
  ∃ before after, effects = before ++ .close :: after ∧ sends after = []

/-- The client can tell where the response ends: the connection is closed behind it, or
its head gives the length of its body. -/
def Delimited (effects : List Effect) : Prop := Closes effects ∨ Http.Announces (sent effects)

/-- What a file name must stand for, for the response to be delimited. -/
def Framed (fs : FileSystem) (stringFile : List UInt8) : Prop :=
  match fs.stat stringFile with
  | .found (.directory _) => (fs.openIn (ascii "dir_tail.html")).isSome
  | .found (.regular content readable) =>
    readable = true ∧ 0 < content.length ∧ content.length < 2 ^ 31
  | .missing => False
  | .fails => False

theorem toNat_toInt_eq_iff {n : ℕ} : 0 < toInt n ∧ (toInt n).toNat = n ↔ 0 < n ∧ n < 2 ^ 31 := by
  constructor
  · rintro ⟨hpos, heq⟩
    have hlt : toInt n < 2 ^ 31 := Int.bmod_lt (by decide)
    omega
  · rintro ⟨hpos, hlt⟩
    rw [toInt_of_lt hlt]
    omega

/-- A response announces its body exactly if it was given the length of it: the other
lines of its head are no lengths. -/
theorem announces_response_iff {statusLine : List UInt8}
    (hstatus : statusLine ≠ [] ∧ (13 : UInt8) ∉ statusLine) (hhttp : statusLine.head? = some 72)
    (file : List UInt8) (length : ℤ) (body : List UInt8) :
    Http.Announces (response statusLine hstatus file length body).bytes ↔
      0 < length ∧ length.toNat = body.length := by
  have hline : Http.contentLength body.length ≠ statusLine := by
    rintro rfl
    exact absurd (Option.some.inj hhttp) (by decide)
  have htype : Http.contentLength body.length ≠ ascii "Content-Type:" ++ getMimeType file := by
    intro h
    have hnine := congrArg (List.take 9) h
    rw [Http.contentLength, List.take_append_of_le_length (by decide),
      List.take_append_of_le_length (by decide)] at hnine
    exact absurd hnine (by decide)
  have hlength : Http.contentLength body.length = Http.contentLength length.toNat ↔
      length.toNat = body.length := Http.contentLength_injective.eq_iff.trans eq_comm
  rw [Http.announces_bytes_iff]
  show Http.contentLength body.length ∈ headLines statusLine (getMimeType file) length ↔ _
  rw [mem_headLines, or_iff_right hline, or_iff_right htype, hlength]

/-- What is sent of a file that may not be there. -/
def content (fs : FileSystem) (name : List UInt8) : List UInt8 := (fs.openIn name).getD []

theorem content_of_regular {fs : FileSystem} {name bytes : List UInt8} {readable : Bool}
    (h : fs.stat name = .found (.regular bytes readable)) :
    content fs name = if readable then bytes else [] := by
  unfold content FileSystem.openIn
  cases readable <;> simp [h]

theorem sent_sendFileRequests (fs : FileSystem) (name : List UInt8) (isClosed : Bool) :
    sent (sendFileRequests fs name isClosed) = content fs name := by
  unfold sendFileRequests content
  cases fs.openIn name <;> cases isClosed <;> simp [sent, sends]

/-- No piece of a response closes the connection. -/
theorem close_notMem_sendHttpHeaders (statusCode : ℕ) (info fileType : List UInt8) (length : ℤ) :
    .close ∉ sendHttpHeaders statusCode info fileType length := by
  unfold sendHttpHeaders
  by_cases hpos : 0 < length <;> simp [hpos]

theorem close_notMem_sendFileRequests (fs : FileSystem) (name : List UInt8) :
    .close ∉ sendFileRequests fs name false := by
  unfold sendFileRequests
  cases fs.openIn name <;> simp

theorem Closes.mem {effects : List Effect} (h : Closes effects) : .close ∈ effects := by
  obtain ⟨before, after, rfl, -⟩ := h
  simp

theorem Closes.append {effects : List Effect} (h : Closes effects) (effects' : List Effect) :
    Closes (effects' ++ effects) := by
  obtain ⟨before, after, rfl, hafter⟩ := h
  exact ⟨effects' ++ before, after, (List.append_assoc _ _ _).symm, hafter⟩

/-- What is sent of a directory behind its header. -/
def listed (fs : FileSystem) : Listing → List UInt8
  | .entries dirs =>
    (dirs.map fun entry => stringLi entry.li).flatten ++ content fs (ascii "dir_tail.html")
  | .unopened => []
  | .unresolved => []

/-- The list of links, sent link by link. -/
theorem sent_map_stringLi (dirs : List DirectoryEntry) :
    sent (dirs.map fun entry => .send (stringLi entry.li)) =
      (dirs.map fun entry => stringLi entry.li).flatten := by
  rw [← sent_map_send, List.map_map]
  rfl

/-- The bytes of a response, for each result of `stat`. -/
theorem sent_respond (fs : FileSystem) (stringFile : List UInt8) :
    sent (respond fs stringFile) =
      match fs.stat stringFile with
      | .fails => []
      | .found (.directory listing) =>
        (ok (ascii "*.html") 0 (content fs (ascii "dir_header.html") ++ listed fs listing)).bytes
      | .found (.regular bytes _) =>
        (ok stringFile (toInt bytes.length) (content fs stringFile)).bytes
      | .missing => (notFound (content fs (ascii "error.html"))).bytes := by
  rw [respond]
  rcases fs.stat stringFile with (⟨listing⟩ | ⟨bytes, readable⟩) | _ | _ <;> dsimp only
  · rw [← sent_sendHttpHeaders 200 (ascii "OK") (ascii "*.html") 0 _ (by decide +kernel),
      sent_append, sent_append, sent_sendFileRequests, List.append_assoc]
    cases listing with
    | entries dirs =>
      dsimp only
      rw [sent_append, sent_map_stringLi, sent_sendFileRequests]
      rfl
    | unopened => rfl
    | unresolved => rfl
  · rw [sent_append, sent_sendFileRequests]
    exact sent_sendHttpHeaders 200 (ascii "OK") stringFile _ _ (by decide +kernel) _
  · rw [sent_append, sent_sendFileRequests]
    exact sent_sendHttpHeaders 404 (ascii "NOT FOUND") (ascii "*.html") 0 _ (by decide +kernel) _
  · rfl

/-- Only the response for a directory closes the connection, and only if its end is sent. -/
theorem closes_respond_iff (fs : FileSystem) (stringFile : List UInt8) :
    Closes (respond fs stringFile) ↔
      ∃ dirs, fs.stat stringFile = .found (.directory (.entries dirs)) ∧
        (fs.openIn (ascii "dir_tail.html")).isSome := by
  rw [respond]
  rcases fs.stat stringFile with (⟨dirs | _ | _⟩ | ⟨bytes, readable⟩) | _ | _ <;> dsimp only
  · cases htail : fs.openIn (ascii "dir_tail.html") with
    | none =>
      refine iff_of_false (fun h => ?_) (by simp)
      have hmem := h.mem
      simp [sendFileRequests, htail, close_notMem_sendHttpHeaders] at hmem
      exact close_notMem_sendFileRequests _ _ (by simpa [sendFileRequests] using hmem)
    | some tail =>
      have hclose : Closes (sendFileRequests fs (ascii "dir_tail.html") true) :=
        ⟨[.send tail], [.epollCtlDel], by simp [sendFileRequests, htail], rfl⟩
      exact iff_of_true ((hclose.append _).append _) ⟨dirs, rfl, rfl⟩
  all_goals
    refine iff_of_false (fun h => ?_) (by simp)
    simpa [close_notMem_sendHttpHeaders, close_notMem_sendFileRequests] using h.mem

/-- Which responses are delimited, by the file name. -/
theorem delimited_respond_iff {fs : FileSystem} {stringFile : List UInt8}
    (hanswered : .terminate ∉ respond fs stringFile) :
    Delimited (respond fs stringFile) ↔ Framed fs stringFile := by
  rw [respond] at hanswered
  rw [Delimited, closes_respond_iff, sent_respond, Framed]
  rcases hstat : fs.stat stringFile with (⟨dirs | _ | _⟩ | ⟨bytes, readable⟩) | _ | _ <;>
    rw [hstat] at hanswered <;> dsimp only at hanswered ⊢
  · rw [announces_response_iff _ (by decide +kernel)]
    simp
  · exact absurd (List.mem_append_right _ List.mem_cons_self) hanswered
  · exact absurd (List.mem_append_right _ List.mem_cons_self) hanswered
  · rw [announces_response_iff _ (by decide +kernel), content_of_regular hstat]
    cases readable with
    | false =>
      -- nothing is sent of a file that cannot be opened, but its size is announced
      simp
    | true => simp [toNat_toInt_eq_iff]
  · rw [announces_response_iff _ (by decide +kernel)]
    simp
  · exact absurd List.mem_cons_self hanswered

/-- **Which responses are delimited.**  Whenever a request of a client gets to a file
name, and does not end the process, the response to it is delimited exactly if the name is
`Framed`. -/
theorem delimited_iff (fs : FileSystem) {s s' : State} {fd : Fd} {stringFile : List UInt8}
    (h : readClientRequests s fd = .ok (.file stringFile, s')) :
    ∃ effects, serve fs s fd = .ok (effects, s') ∧
      (.terminate ∉ effects → (Delimited effects ↔ Framed fs stringFile)) := by
  refine ⟨respond fs stringFile, ?_, delimited_respond_iff⟩
  rw [serve, h]

/-- A directory with two files, one of them empty. -/
def sampleFiles : FileSystem := fun name =>
  if name = ascii "a.txt" then .found (.regular (ascii "hello") true)
  else if name = ascii "empty.txt" then .found (.regular [] true)
  else .missing

theorem delimited_a : ∃ effects s',
    serve sampleFiles (sending (ascii "GET /a.txt HTTP/1.1\r\n\r\n") (by decide) (by decide)) 5 =
      .ok (effects, s') ∧ .terminate ∉ effects ∧ Delimited effects := by
  have hok : (readClientRequests (sending (ascii "GET /a.txt HTTP/1.1\r\n\r\n") (by decide)
      (by decide)) 5).map Prod.fst = .ok (.file (ascii "a.txt")) := by decide +kernel
  obtain ⟨s', hcall⟩ := exists_of_map_fst hok
  obtain ⟨effects, hserve, hiff⟩ := delimited_iff sampleFiles hcall
  have heffects : effects = respond sampleFiles (ascii "a.txt") := by
    rw [serve, hcall] at hserve
    exact (congrArg Prod.fst (Except.ok.inj hserve)).symm
  have hanswered : .terminate ∉ effects := by
    rw [heffects]
    decide +kernel
  refine ⟨effects, s', hserve, hanswered, (hiff hanswered).mpr ?_⟩
  show true = true ∧ 0 < (ascii "hello").length ∧ (ascii "hello").length < 2 ^ 31
  decide

/-- Neither the response for an empty file nor the one for a missing file is delimited. -/
theorem not_delimited_empty_missing :
    (∃ effects s', serve sampleFiles (sending (ascii "GET /empty.txt HTTP/1.1\r\n\r\n") (by decide)
      (by decide)) 5 = .ok (effects, s') ∧ .terminate ∉ effects ∧ ¬ Delimited effects) ∧
    ∃ effects s', serve sampleFiles (sending (ascii "GET /missing HTTP/1.1\r\n\r\n") (by decide)
      (by decide)) 5 = .ok (effects, s') ∧ .terminate ∉ effects ∧ ¬ Delimited effects := by
  have hempty : (serve sampleFiles (sending (ascii "GET /empty.txt HTTP/1.1\r\n\r\n") (by decide)
      (by decide)) 5).map Prod.fst = .ok (respond sampleFiles (ascii "empty.txt")) := by
    decide +kernel
  have hmissing : (serve sampleFiles (sending (ascii "GET /missing HTTP/1.1\r\n\r\n") (by decide)
      (by decide)) 5).map Prod.fst = .ok (respond sampleFiles (ascii "missing")) := by
    decide +kernel
  obtain ⟨s₁, hs₁⟩ := exists_of_map_fst hempty
  obtain ⟨s₂, hs₂⟩ := exists_of_map_fst hmissing
  have hanswered₁ : .terminate ∉ respond sampleFiles (ascii "empty.txt") := by decide +kernel
  have hanswered₂ : .terminate ∉ respond sampleFiles (ascii "missing") := by decide +kernel
  refine ⟨⟨_, s₁, hs₁, hanswered₁, ?_⟩, ⟨_, s₂, hs₂, hanswered₂, ?_⟩⟩
  · rw [delimited_respond_iff hanswered₁]
    rintro ⟨-, hpos, -⟩
    exact absurd hpos (by decide)
  · rw [delimited_respond_iff hanswered₂]
    exact id

/-! ## What arrives of a file -/

theorem length_taken_le (buffer : List UInt8) (result : SendResult) :
    (result.taken buffer).length ≤ buffer.length := by
  cases result with
  | full => exact le_rfl
  | short count => exact List.length_take_le' count buffer
  | eagain => exact Nat.zero_le _

/-- Only a `send` that takes everything takes as much as there is. -/
theorem eq_full_of_length_taken {buffer : List UInt8} (hne : buffer ≠ []) {result : SendResult}
    (hsound : result.Sound buffer) (h : buffer.length ≤ (result.taken buffer).length) :
    result = .full := by
  have hpos := List.length_pos_iff.mpr hne
  cases result with
  | full => rfl
  | short count =>
    rw [SendResult.taken, List.length_take] at h
    have hlt := hsound.2
    omega
  | eagain =>
    have hnil : buffer.length ≤ 0 := h
    omega

theorem length_accepted_le (buffers : List (List UInt8)) (results : ℕ → SendResult) :
    (accepted buffers results).length ≤ buffers.flatten.length := by
  induction buffers generalizing results with
  | nil => exact le_rfl
  | cons buffer buffers ih =>
    have hfirst := length_taken_le buffer (results 0)
    have hrest := ih fun k => results (k + 1)
    rw [accepted, List.length_append, List.flatten_cons, List.length_append]
    omega

/-- **Everything arrives exactly if every `send` takes everything.** -/
theorem accepted_eq_iff {buffers : List (List UInt8)} {results : ℕ → SendResult}
    (hne : ∀ buffer ∈ buffers, buffer ≠ []) (hsound : Sound buffers results) :
    accepted buffers results = buffers.flatten ↔ ∀ k < buffers.length, results k = .full := by
  induction buffers generalizing results with
  | nil => simp [accepted]
  | cons buffer buffers ih =>
    have hsound' : Sound buffers fun k => results (k + 1) := fun k => hsound (k + 1)
    have hih := ih (fun b hb => hne b (List.mem_cons_of_mem _ hb)) hsound'
    rw [accepted, List.flatten_cons]
    constructor
    · intro h
      have hlen := congrArg List.length h
      have hfirst := length_taken_le buffer (results 0)
      have hrest := length_accepted_le buffers fun k => results (k + 1)
      rw [List.length_append, List.length_append] at hlen
      have hfull := eq_full_of_length_taken (hne buffer List.mem_cons_self)
        (hsound 0 buffer rfl) (by omega)
      rw [hfull] at h
      have hothers := hih.mp (List.append_cancel_left h)
      rintro (_ | k) hk
      · exact hfull
      · exact hothers k (Nat.lt_of_succ_lt_succ hk)
    · intro h
      rw [h 0 (Nat.succ_pos _), hih.mpr fun k hk => h (k + 1) (Nat.succ_lt_succ hk)]
      rfl

/-- The pieces of the response for a file whose size is positive as an `int`. -/
theorem sends_respond_regular {fs : FileSystem} {stringFile bytes : List UInt8} {readable : Bool}
    (hstat : fs.stat stringFile = .found (.regular bytes readable)) (hpos : 0 < bytes.length)
    (hint : bytes.length < 2 ^ 31) :
    sends (respond fs stringFile) =
      [ascii "HTTP/1.1 " ++ Http.decimal 200 ++ ascii " " ++ ascii "OK" ++ ascii "\r\n",
        ascii "Content-Type:" ++ getMimeType stringFile ++ ascii "\r\n",
        ascii "Content-Length:" ++ Http.decimal bytes.length ++ ascii "\r\n", ascii "\r\n"] ++
      if readable then [bytes] else [] := by
  rw [respond, hstat]
  dsimp only
  rw [toInt_of_lt hint, sendHttpHeaders, if_pos (Int.natCast_pos.mpr hpos), sendFileRequests,
    FileSystem.openIn, hstat]
  cases readable <;> simp [sends]

/-- **When a file arrives.**  For a regular file whose size is positive and fits into an
`int`, the bytes the kernel takes are the status line, the headers with the size of the
file, the empty line and the file exactly if the file can be opened and all five calls
of `send` take everything. -/
theorem whole_iff {fs : FileSystem} {stringFile bytes : List UInt8} {readable : Bool}
    (hstat : fs.stat stringFile = .found (.regular bytes readable)) (hpos : 0 < bytes.length)
    (hint : bytes.length < 2 ^ 31) {results : ℕ → SendResult}
    (hsound : Sound (sends (respond fs stringFile)) results) :
    accepted (sends (respond fs stringFile)) results = (ok stringFile bytes.length bytes).bytes ↔
      readable = true ∧ ∀ k < 5, results k = .full := by
  have hpieces := sends_respond_regular hstat hpos hint
  have hsent : (sends (respond fs stringFile)).flatten =
      (ok stringFile bytes.length (if readable then bytes else [])).bytes := by
    have h := sent_respond fs stringFile
    rw [hstat] at h
    dsimp only at h
    rwa [content_of_regular hstat, toInt_of_lt hint] at h
  cases readable with
  | false =>
    -- not even all of the four pieces of the head would be enough
    have hle := length_accepted_le (sends (respond fs stringFile)) results
    rw [hsent] at hle
    refine iff_of_false (fun h => ?_) (by simp)
    have hhead : (ok stringFile bytes.length bytes).head = (ok stringFile bytes.length []).head := rfl
    have hbody : (ok stringFile bytes.length bytes).body = bytes := rfl
    have hnil : (ok stringFile bytes.length []).body = [] := rfl
    rw [h, if_neg Bool.false_ne_true, Http.Response.length_bytes, Http.Response.length_bytes, hhead,
      hbody, hnil, List.length_nil] at hle
    omega
  | true =>
    have hne : ∀ buffer ∈ sends (respond fs stringFile), buffer ≠ [] := by
      rw [hpieces]
      simp only [List.mem_append, List.mem_cons, List.not_mem_nil, or_false, if_pos]
      rintro buffer ((rfl | rfl | rfl | rfl) | rfl)
      · exact List.append_ne_nil_of_right_ne_nil _ (by decide)
      · exact List.append_ne_nil_of_right_ne_nil _ (by decide)
      · exact List.append_ne_nil_of_right_ne_nil _ (by decide)
      · decide
      · exact List.length_pos_iff.mp hpos
    have hlen : (sends (respond fs stringFile)).length = 5 := by
      rw [hpieces]
      rfl
    have hall := accepted_eq_iff hne hsound
    rw [hsent, hlen] at hall
    rw [← hall]
    simp

theorem stat_a : sampleFiles.stat (ascii "a.txt") = .found (.regular (ascii "hello") true) := by
  have hname : cstr (ascii "a.txt") = ascii "a.txt" := by decide
  rw [FileSystem.stat, hname, sampleFiles, if_pos rfl]

theorem whole_a :
    accepted (sends (respond sampleFiles (ascii "a.txt"))) (fun _ => .full) =
      (ok (ascii "a.txt") (ascii "hello").length (ascii "hello")).bytes := by
  have hsound : Sound (sends (respond sampleFiles (ascii "a.txt"))) fun _ => .full :=
    fun _ _ _ => trivial
  exact (whole_iff stat_a (by decide) (by decide) hsound).mpr ⟨rfl, fun _ _ => rfl⟩

/-- The kernel takes two bytes of the body, and the client waits for the other three. -/
theorem not_whole_a :
    Sound (sends (respond sampleFiles (ascii "a.txt")))
        (fun k => if k = 4 then .short 2 else .full) ∧
      accepted (sends (respond sampleFiles (ascii "a.txt")))
        (fun k => if k = 4 then .short 2 else .full) =
          (ok (ascii "a.txt") (ascii "hello").length (ascii "he")).bytes ∧
      (ok (ascii "a.txt") (ascii "hello").length (ascii "he")).bytes ≠
        (ok (ascii "a.txt") (ascii "hello").length (ascii "hello")).bytes := by
  have hpieces := sends_respond_regular stat_a (by decide) (by decide)
  rw [hpieces]
  refine ⟨?_, by decide +kernel, by decide +kernel⟩
  rintro k buffer hk
  dsimp only
  split
  · subst k
    have hbuffer : buffer = ascii "hello" := (Option.some.inj hk).symm
    rw [hbuffer]
    exact (by decide : 0 < 2 ∧ 2 < (ascii "hello").length)
  · trivial

end WebServer
end UnixNetwork
