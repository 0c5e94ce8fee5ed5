import UnixNetwork.WebServer.Delivery

/-!
# Do the two web servers answer alike?

The epoll server and the libevent server have the same way from a file name to a
response, written twice: `answer_respond_eq` says that it gives the same bytes, and that
an exception ends both of them at the same place.  What differs is how they come to the
request line.  The epoll server reads a line of up to 1499 bytes.  The libevent server
takes the first 256 bytes of the request, headers included, and treats them as a C
string, without having kept a place for the terminator.

`alike_iff` says that this is the only difference: on a well-formed request the servers
answer alike exactly if the first 256 bytes leave room for a terminator, or happen to
have one in them.
-/

namespace UnixNetwork
namespace WebServer

open Bytes

/-! ## The same response -/

theorem sent_sendHttpHeaders_eq (statusCode : ℕ) (info fileType : List UInt8) (length : ℤ) :
    sent (sendHttpHeaders statusCode info fileType length) =
      EventWebserver.sendHttpHeaders statusCode info fileType length := by
  unfold sendHttpHeaders EventWebserver.sendHttpHeaders
  by_cases hpos : 0 < length <;> simp [hpos, sent, sends]

theorem sendFileRequests_eq (fs : FileSystem) (filePath : List UInt8) :
    EventWebserver.sendFileRequests fs filePath = content fs filePath := by
  unfold EventWebserver.sendFileRequests content
  cases fs.openIn filePath <;> rfl

/-- The list of links, sent link by link or all at once. -/
theorem sent_map_stringLi_eq (dirs : List DirectoryEntry) :
    sent (dirs.map fun entry => .send (stringLi entry.li)) =
      dirs.foldl (fun string_li entry => string_li ++ stringLi entry.li) [] := by
  rw [sent_map_stringLi, ← List.flatMap_eq_foldl, List.flatMap_def]

theorem terminate_notMem_sendHttpHeaders (statusCode : ℕ) (info fileType : List UInt8) (length : ℤ) :
    .terminate ∉ sendHttpHeaders statusCode info fileType length := by
  unfold sendHttpHeaders
  by_cases hpos : 0 < length <;> simp [hpos]

theorem terminate_notMem_sendFileRequests (fs : FileSystem) (name : List UInt8) (isClosed : Bool) :
    .terminate ∉ sendFileRequests fs name isClosed := by
  unfold sendFileRequests
  cases fs.openIn name <;> cases isClosed <;> simp

/-- **One answer, sent in two ways.** -/
theorem answer_respond_eq (fs : FileSystem) (stringFile : List UInt8) :
    answer (respond fs stringFile) = EventWebserver.respond fs stringFile := by
  have hterminate : sent [.terminate] = [] := rfl
  rw [answer, respond, EventWebserver.respond]
  rcases fs.stat stringFile with (⟨dirs | _ | _⟩ | ⟨bytes, readable⟩) | _ | _ <;>
    simp [sent_append, sent_sendFileRequests, sent_sendHttpHeaders_eq, sendFileRequests_eq,
      sent_map_stringLi_eq, hterminate, terminate_notMem_sendHttpHeaders,
      terminate_notMem_sendFileRequests]

/-! ## The same request -/

/-- A `GET` request: the line, and whatever headers. -/
def getRequest (path headers : List UInt8) : List UInt8 :=
  ascii "GET " ++ (path ++ (ascii " HTTP/1.1\r\n" ++ headers))

/-- The line, without its end. -/
def getLine (path : List UInt8) : List UInt8 := ascii "GET " ++ (path ++ ascii " HTTP/1.1")

theorem getRequest_eq (path headers : List UInt8) :
    getRequest path headers = getLine path ++ (13 :: 10 :: headers) := by
  have hversion : ascii " HTTP/1.1\r\n" = ascii " HTTP/1.1" ++ [13, 10] := by decide
  rw [getRequest, getLine, hversion]
  simp

/-- What is behind the line does not matter. -/
theorem parseRequest_getLine {path : List UInt8} (h : (32 : UInt8) ∉ path) (t : List UInt8) :
    parseRequest (getLine path ++ t) = (stringFile path).map some := by
  rw [← parseRequest_get h (ascii "HTTP/1.1" ++ t)]
  refine congrArg parseRequest ?_
  have hversion : ascii " HTTP/1.1" = 32 :: ascii "HTTP/1.1" := by decide
  rw [getLine, hversion]
  simp

theorem notMem_getLine {c : UInt8} (hc : c ∉ ascii "GET " ++ ascii " HTTP/1.1") {path : List UInt8}
    (h : c ∉ path) : c ∉ getLine path := by
  rw [List.mem_append, not_or] at hc
  rw [getLine, List.mem_append, List.mem_append, not_or, not_or]
  exact ⟨hc.1, h, hc.2⟩

section

variable {path : List UInt8} (h32 : (32 : UInt8) ∉ path) (h0 : (0 : UInt8) ∉ path)
  (headers : List UInt8)

include h32 h0

/-- The epoll server, if the line fits. -/
theorem serve_getRequest (h10 : (10 : UInt8) ∉ path) (fs : FileSystem) {s : State} {fd : Fd}
    (hline : (getLine path).length ≤ 1499) (hhas : Has fd s (getRequest path headers)) :
    (serve fs s fd).map (fun r => answer r.1) = (stringFile path).map (EventWebserver.respond fs) := by
  rw [getRequest_eq] at hhas
  obtain ⟨s', hread⟩ := readRequest_has hhas (Or.inl (by simp))
  obtain ⟨k, hk⟩ : ∃ k, 1499 = (getLine path).length + k := ⟨1499 - (getLine path).length, by omega⟩
  rw [hk, takeLine_append (notMem_getLine (by decide) h10),
    cstr_append (notMem_getLine (by decide) h0)] at hread
  unfold serve readClientRequests
  rw [hread]
  dsimp only
  rw [parseRequest_getLine h32]
  cases stringFile path with
  | error e => rfl
  | ok file => exact congrArg Except.ok (answer_respond_eq fs file)

/-- The libevent server, if its buffer is terminated. -/
theorem eventServe_getRequest (fs : FileSystem)
    (hterm : (getRequest path headers).length < bufferSize ∨
      (0 : UInt8) ∈ (getRequest path headers).take bufferSize) :
    EventWebserver.serve fs (getRequest path headers) =
      (stringFile path).map (EventWebserver.respond fs) := by
  have hnul : (0 : UInt8) ∉ getLine path := notMem_getLine (by decide) h0
  -- the buffer has room for the line, or its terminator would be in the line
  have hlen : (getLine path).length ≤ bufferSize := by
    by_contra hlong
    rw [getRequest_eq] at hterm
    rcases hterm with hlt | hmem
    · rw [List.length_append] at hlt
      omega
    · rw [List.take_append_of_le_length (by omega)] at hmem
      exact hnul (List.mem_of_mem_take hmem)
  obtain ⟨k, hk⟩ : ∃ k, bufferSize = (getLine path).length + k :=
    ⟨bufferSize - (getLine path).length, by omega⟩
  have hline : cstr ((getRequest path headers).take bufferSize) =
      getLine path ++ cstr ((13 :: 10 :: headers).take k) := by
    rw [getRequest_eq, hk, List.take_length_add_append, cstr_append hnul]
  rw [EventWebserver.serve, readCb_eq, if_pos hterm, hline, parseRequest_getLine h32]
  cases stringFile path with
  | error e => rfl
  | ok file => rfl

end

/-- The libevent server, if its buffer is full. -/
theorem eventServe_of_full (fs : FileSystem) {input : List UInt8}
    (h : ¬ (input.length < bufferSize ∨ (0 : UInt8) ∈ input.take bufferSize)) :
    EventWebserver.serve fs input = .error .outOfBounds := by
  rw [EventWebserver.serve, readCb_eq, if_neg h]

/-- **When the web servers answer alike.**  A `GET` request whose line fits into 1499 bytes,
with any path and any headers, is there as a whole.  Then what the two servers write for it,
on any file system, and whether they end on an exception behind that, is the same exactly if
the request is shorter than 256 bytes or has a NUL among its first 256 bytes; otherwise the
libevent server reads past its buffer. -/
theorem alike_iff (fs : FileSystem) {path : List UInt8} (h32 : (32 : UInt8) ∉ path)
    (h10 : (10 : UInt8) ∉ path) (h0 : (0 : UInt8) ∉ path) (headers : List UInt8)
    (hline : (getLine path).length ≤ 1499) {s : State} {fd : Fd}
    (hhas : Has fd s (getRequest path headers)) :
    (serve fs s fd).map (fun r => answer r.1) = EventWebserver.serve fs (getRequest path headers) ↔
      (getRequest path headers).length < 256 ∨
        (0 : UInt8) ∈ (getRequest path headers).take 256 := by
  rw [serve_getRequest h32 h0 headers h10 fs hline hhas]
  constructor
  · intro h
    by_contra hfull
    rw [eventServe_of_full fs hfull] at h
    have hne := stringFile_ne_outOfBounds path
    cases hfile : stringFile path with
    | error e =>
      rw [hfile] at h hne
      exact hne (congrArg Except.error (Except.error.inj h))
    | ok file =>
      rw [hfile] at h
      cases h
  · intro hterm
    exact (eventServe_getRequest h32 h0 headers fs hterm).symm

theorem alike_a :
    (serve sampleFiles (sending (getRequest (ascii "/a.txt") (ascii "\r\n")) (by decide)
      (by decide)) 5).map (fun r => answer r.1) =
      EventWebserver.serve sampleFiles (getRequest (ascii "/a.txt") (ascii "\r\n")) :=
  (alike_iff sampleFiles (by decide) (by decide) (by decide) _ (by decide)
    (has_sending 5 _ _)).mpr (by decide)

/-- Headers with a cookie of 300 characters. -/
def longHeaders : List UInt8 := ascii "Cookie: " ++ List.replicate 300 97 ++ ascii "\r\n\r\n"

/-- A request for a small file with these headers. -/
def longRequest : List UInt8 := getRequest (ascii "/a.txt") longHeaders

/-- The request, in four pieces. -/
def longPieces : List ReadResult :=
  [.data (longRequest.take 100) (by decide +kernel) (by decide +kernel),
    .data ((longRequest.drop 100).take 100) (by decide +kernel) (by decide +kernel),
    .data ((longRequest.drop 200).take 100) (by decide +kernel) (by decide +kernel),
    .data (longRequest.drop 300) (by decide +kernel) (by decide +kernel)]

/-- A client that has sent it. -/
def longState : State where
  static := MyRead.start
  input := fun _ => longPieces ++ [.eagain]

/-- The epoll server sends the file, and the libevent server has read past its buffer. -/
theorem not_alike_long :
    (32 : UInt8) ∉ ascii "/a.txt" ∧ (10 : UInt8) ∉ ascii "/a.txt" ∧ (0 : UInt8) ∉ ascii "/a.txt" ∧
      (getLine (ascii "/a.txt")).length ≤ 1499 ∧ Has 5 longState longRequest ∧
      (serve sampleFiles longState 5).map (fun r => answer r.1) =
        .ok ⟨(ok (ascii "a.txt") 5 (ascii "hello")).bytes, false⟩ ∧
      EventWebserver.serve sampleFiles longRequest = .error .outOfBounds := by
  have h32 : (32 : UInt8) ∉ ascii "/a.txt" := by decide +kernel
  have h10 : (10 : UInt8) ∉ ascii "/a.txt" := by decide +kernel
  have h0 : (0 : UInt8) ∉ ascii "/a.txt" := by decide +kernel
  have hline : (getLine (ascii "/a.txt")).length ≤ 1499 := by decide +kernel
  have hhas : Has 5 longState longRequest := by
    refine ⟨longPieces, [.eagain], rfl, ?_, by decide +kernel⟩
    simp [longPieces, ReadResult.Flows]
  refine ⟨h32, h10, h0, hline, hhas, ?_, by decide +kernel⟩
  rw [serve_getRequest h32 h0 longHeaders h10 sampleFiles hline hhas]
  decide +kernel

end WebServer
end UnixNetwork
