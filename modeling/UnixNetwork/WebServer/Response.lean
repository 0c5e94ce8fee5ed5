import UnixNetwork.Protocol.Http
import UnixNetwork.WebServer.Listing

/-!
# From a file name to a response

The other half of both web servers: `get_mime_type`, `send_http_headers`,
`send_file_requests`, and what `read_client_requests` does once it knows the name of
the file.

The epoll server sends a response in pieces, each by its own `send` on a non-blocking
socket, and looks at the result of none of them.  So the pieces it means to send do not
depend on what the kernel takes, and a response is the list of its `Effect`s;
`accepted` is what the kernel takes of them.  The libevent server puts its pieces into
the output buffer of the connection, and there a response is just its bytes.

A file system is what `stat` finds under each name.  Names are C strings, whatever the
`std::string` they come from has behind a NUL.  `fs::exists` and `fs::directory_iterator`
throw on errors, and no one catches the exception: what has been written so far is the
answer then, and the process ends.
-/

namespace UnixNetwork
namespace WebServer

open Bytes
open Upgrade (crlf)

/-! ## Files -/

/-- What the loop over a directory comes to: its entries, or an exception, because the
directory cannot be opened, or because the type of an entry cannot be found. -/
inductive Listing where
  | entries (dirs : List DirectoryEntry)
  | unopened
  | unresolved

/-- What a name stands for. -/
inductive Node where
  | directory (listing : Listing)
  | regular (content : List UInt8) (readable : Bool)

/-- What `stat` says of a name: what it stands for, that there is no such file (`ENOENT`,
`ENOTDIR`), or another error (`EACCES`, `ELOOP`, `ENAMETOOLONG`). -/
inductive Lookup where
  | found (node : Node)
  | missing
  | fails

/-- What the server finds, by names as seen from its directory. -/
abbrev FileSystem := List UInt8 → Lookup

/-- `stat(name.c_str(), _)`. -/
def FileSystem.stat (fs : FileSystem) (name : List UInt8) : Lookup := fs (cstr name)

/-- `files.open(name, ios_base::in)` and what can then be read.  A directory can be
opened, but nothing can be read from it. -/
def FileSystem.openIn (fs : FileSystem) (name : List UInt8) : Option (List UInt8) :=
  match fs.stat name with
  | .found (.regular content true) => some content
  | .found (.regular _ false) => none
  | .found (.directory .unopened) => none
  | .found (.directory _) => some []
  | .missing => none
  | .fails => none

/-- The tests of `get_mime_type`, in order. -/
def mimeTypes : List (List UInt8 × List UInt8) :=
  [(ascii ".html", ascii "text/html; charset=utf-8"), (ascii ".htm", ascii "text/html; charset=utf-8"),
    (ascii ".jpg", ascii "image/jpeg"), (ascii ".jpeg", ascii "image/jpeg"),
    (ascii ".gif", ascii "image/gif"), (ascii ".png", ascii "image/png"),
    (ascii ".css", ascii "text/css"), (ascii ".au", ascii "audio/basic"),
    (ascii ".wav", ascii "audio/wav"), (ascii ".avi", ascii "video/x-msvideo"),
    (ascii ".mov", ascii "video/quicktime"), (ascii ".qt", ascii "video/quicktime"),
    (ascii ".mpeg", ascii "video/mpeg"), (ascii ".mpe", ascii "video/mpeg"),
    (ascii ".vrml", ascii "model/vrml"), (ascii ".wrl", ascii "model/vrml"),
    (ascii ".midi", ascii "audio/midi"), (ascii ".mid", ascii "audio/midi"),
    (ascii ".mp3", ascii "audio/mpeg"), (ascii ".ogg", ascii "application/ogg"),
    (ascii ".pac", ascii "application/x-ns-proxy-autoconfig")]

/-- `get_mime_type`, by what stands from the last dot on. -/
def getMimeType (str : List UInt8) : List UInt8 :=
  if (46 : UInt8) ∉ str then ascii "text/plain; charset=utf-8"
  else
    let dot := 46 :: (str.reverse.takeWhile (· ≠ 46)).reverse
    match mimeTypes.find? (·.1 = dot) with
    | some (_, mime) => mime
    | none => ascii "text/plain; charset=utf-8"

/-! ## The epoll server -/

/-- A system call on the socket of the client, or the end of the process on an exception. -/
inductive Effect where
  | send (buffer : List UInt8)
  | close
  | epollCtlDel
  | terminate
  deriving DecidableEq

/-- `send_http_headers`. -/
def sendHttpHeaders (statusCode : ℕ) (info fileType : List UInt8) (length : ℤ) : List Effect :=
  [.send (ascii "HTTP/1.1 " ++ Http.decimal statusCode ++ ascii " " ++ info ++ ascii "\r\n"),
    .send (ascii "Content-Type:" ++ fileType ++ ascii "\r\n")] ++
  (if 0 < length then
    [.send (ascii "Content-Length:" ++ Http.decimal length.toNat ++ ascii "\r\n")] else []) ++
  [.send (ascii "\r\n")]

/-- `send_file_requests`. -/
def sendFileRequests (fs : FileSystem) (filePath : List UInt8) (isClosed : Bool) : List Effect :=
  match fs.openIn filePath with
  | none => []
  | some fileCount => .send fileCount :: if isClosed then [.close, .epollCtlDel] else []

/-- `read_client_requests`, from the name of the file on. -/
def respond (fs : FileSystem) (stringFile : List UInt8) : List Effect :=
  match fs.stat stringFile with
  | .fails => [.terminate] -- `fs::exists` throws
  | .found (.directory listing) =>
    sendHttpHeaders 200 (ascii "OK") (getMimeType (ascii "*.html")) 0 ++
    sendFileRequests fs (ascii "dir_header.html") false ++
    match listing with
    | .entries dirs =>
      dirs.map (fun entry => .send (stringLi entry.li)) ++
      sendFileRequests fs (ascii "dir_tail.html") true
    | .unopened => [.terminate]
    | .unresolved => [.terminate]
  | .found (.regular content _) =>
    sendHttpHeaders 200 (ascii "OK") (getMimeType stringFile) (toInt content.length) ++
    sendFileRequests fs stringFile false
  | .missing =>
    sendHttpHeaders 404 (ascii "NOT FOUND") (getMimeType (ascii "*.html")) 0 ++
    sendFileRequests fs (ascii "error.html") false

/-- `read_client_requests`, as a whole. -/
def serve (fs : FileSystem) (s : State) (fd : Fd) : Except Fault (List Effect × State) :=
  match readClientRequests s fd with
  | .error e => .error e
  | .ok (.closed, s) => .ok ([.epollCtlDel, .close], s)
  | .ok (.ignored, s) => .ok ([], s)
  | .ok (.file stringFile, s) => .ok (respond fs stringFile, s)

/-! ## The libevent server -/

/-- What a server writes in answer to a request, and whether its process ends on an exception
behind that. -/
structure Answer where
  written : List UInt8
  terminated : Bool
  deriving DecidableEq

namespace EventWebserver

/-- `send_http_headers` of the libevent server. -/
def sendHttpHeaders (statusCode : ℕ) (info fileType : List UInt8) (length : ℤ) : List UInt8 :=
  ascii "HTTP/1.1 " ++ Http.decimal statusCode ++ ascii " " ++ info ++ ascii "\r\n" ++
  (ascii "Content-Type:" ++ fileType ++ ascii "\r\n") ++
  (if 0 < length then ascii "Content-Length:" ++ Http.decimal length.toNat ++ ascii "\r\n" else []) ++
  ascii "\r\n"

/-- `send_file_requests` of the libevent server. -/
def sendFileRequests (fs : FileSystem) (filePath : List UInt8) : List UInt8 :=
  match fs.openIn filePath with
  | none => []
  | some fileCount => fileCount

/-- `read_client_requests` of the libevent server, from the name of the file on. -/
def respond (fs : FileSystem) (stringFile : List UInt8) : Answer :=
  match fs.stat stringFile with
  | .fails => ⟨[], true⟩ -- `fs::exists` throws
  | .found (.directory listing) =>
    let header := sendHttpHeaders 200 (ascii "OK") (getMimeType (ascii "*.html")) 0 ++
      sendFileRequests fs (ascii "dir_header.html")
    match listing with
    | .entries dirs =>
      ⟨header ++ dirs.foldl (fun string_li entry => string_li ++ stringLi entry.li) [] ++
        sendFileRequests fs (ascii "dir_tail.html"), false⟩
    | .unopened => ⟨header, true⟩
    | .unresolved => ⟨header, true⟩
  | .found (.regular content _) =>
    ⟨sendHttpHeaders 200 (ascii "OK") (getMimeType stringFile) (toInt content.length) ++
      sendFileRequests fs stringFile, false⟩
  | .missing =>
    ⟨sendHttpHeaders 404 (ascii "NOT FOUND") (getMimeType (ascii "*.html")) 0 ++
      sendFileRequests fs (ascii "error.html"), false⟩

/-- `read_cb`, as a whole: what it writes for what the connection has buffered. -/
def serve (fs : FileSystem) (input : List UInt8) : Except Fault Answer :=
  match readCb input with
  | .error e => .error e
  | .ok none => .ok ⟨[], false⟩
  | .ok (some stringFile) => .ok (respond fs stringFile)

end EventWebserver

/-! ## What the kernel takes -/

/-- What a non-blocking `send` can do with a buffer: take all of it, take a smaller
part, or take nothing. -/
inductive SendResult where
  | full
  | short (count : ℕ)
  | eagain
  deriving DecidableEq

/-- A smaller part is still some of it. -/
def SendResult.Sound (buffer : List UInt8) : SendResult → Prop
  | .full => True
  | .short count => 0 < count ∧ count < buffer.length
  | .eagain => True

/-- The part of the buffer the kernel has taken. -/
def SendResult.taken (buffer : List UInt8) : SendResult → List UInt8
  | .full => buffer
  | .short count => buffer.take count
  | .eagain => []

/-- The buffers passed to `send`, in order. -/
def sends (effects : List Effect) : List (List UInt8) :=
  effects.filterMap fun
    | .send buffer => some buffer
    | _ => none

/-- What the kernel takes of buffers that are sent one after the other. -/
def accepted : List (List UInt8) → (ℕ → SendResult) → List UInt8
  | [], _ => []
  | buffer :: buffers, results =>
    (results 0).taken buffer ++ accepted buffers fun k => results (k + 1)

/-- Results that `send` can give for these buffers. -/
def Sound (buffers : List (List UInt8)) (results : ℕ → SendResult) : Prop :=
  ∀ k buffer, buffers[k]? = some buffer → (results k).Sound buffer

/-! ## Responses as a client sees them -/

/-- All that is sent. -/
def sent (effects : List Effect) : List UInt8 := (sends effects).flatten

/-- The answer that is sent, piece by piece. -/
def answer (effects : List Effect) : Answer := ⟨sent effects, decide (.terminate ∈ effects)⟩

theorem sends_append (effects effects' : List Effect) :
    sends (effects ++ effects') = sends effects ++ sends effects' := List.filterMap_append

theorem sent_append (effects effects' : List Effect) :
    sent (effects ++ effects') = sent effects ++ sent effects' := by
  rw [sent, sends_append, List.flatten_append]
  rfl

theorem sent_map_send (buffers : List (List UInt8)) :
    sent (buffers.map .send) = buffers.flatten := by
  rw [sent, sends, List.filterMap_map]
  exact congrArg List.flatten (List.filterMap_some)

/-- No type has a carriage return in it. -/
theorem cr_notMem_getMimeType (str : List UInt8) : (13 : UInt8) ∉ getMimeType str := by
  have hall : ∀ p ∈ mimeTypes, (13 : UInt8) ∉ p.2 := by decide
  have hplain : (13 : UInt8) ∉ ascii "text/plain; charset=utf-8" := by decide
  unfold getMimeType
  split
  · exact hplain
  · dsimp only
    split
    · rename_i dot mime hfind
      exact hall _ (List.mem_of_find?_eq_some hfind)
    · exact hplain

/-- The lines of a head: the status line, the type, and a length that may be left out. -/
def headLines (statusLine fileType : List UInt8) (length : ℤ) : List (List UInt8) :=
  [statusLine, ascii "Content-Type:" ++ fileType] ++
    if 0 < length then [Http.contentLength length.toNat] else []

theorem mem_headLines {l statusLine fileType : List UInt8} {length : ℤ} :
    l ∈ headLines statusLine fileType length ↔
      l = statusLine ∨ l = ascii "Content-Type:" ++ fileType ∨
        0 < length ∧ l = Http.contentLength length.toNat := by
  unfold headLines
  by_cases hpos : 0 < length <;> simp [hpos]

/-- A status line and a type without carriage returns give lines that can be told apart. -/
theorem of_mem_headLines {l statusLine fileType : List UInt8} {length : ℤ}
    (hstatus : statusLine ≠ [] ∧ (13 : UInt8) ∉ statusLine) (htype : (13 : UInt8) ∉ fileType)
    (h : l ∈ headLines statusLine fileType length) : l ≠ [] ∧ (13 : UInt8) ∉ l := by
  rcases mem_headLines.mp h with rfl | rfl | ⟨-, rfl⟩
  · exact hstatus
  · refine ⟨List.append_ne_nil_of_left_ne_nil (by decide) _, ?_⟩
    rw [List.mem_append, not_or]
    exact ⟨by decide, htype⟩
  · refine ⟨List.append_ne_nil_of_left_ne_nil (by decide) _, ?_⟩
    rw [Http.contentLength, List.mem_append, not_or]
    exact ⟨by decide, Http.cr_notMem_decimal _⟩

/-- A response to the client, of the parts the servers put together. -/
def response (statusLine : List UInt8) (hstatus : statusLine ≠ [] ∧ (13 : UInt8) ∉ statusLine)
    (file : List UInt8) (length : ℤ) (body : List UInt8) : Http.Response where
  head := headLines statusLine (getMimeType file) length
  body := body
  ne_nil := fun _ hl => (of_mem_headLines hstatus (cr_notMem_getMimeType file) hl).1
  crlf_free := fun _ hl =>
    Http.crlf_free_of_notMem (of_mem_headLines hstatus (cr_notMem_getMimeType file) hl).2

/-- `HTTP/1.1 200 OK`, for a file or a directory. -/
abbrev ok (file : List UInt8) (length : ℤ) (body : List UInt8) : Http.Response :=
  response (ascii "HTTP/1.1 200 OK") (by decide +kernel) file length body

/-- `HTTP/1.1 404 NOT FOUND`. -/
abbrev notFound (body : List UInt8) : Http.Response :=
  response (ascii "HTTP/1.1 404 NOT FOUND") (by decide +kernel) (ascii "*.html") 0 body

/-- The pieces of a head, put together. -/
theorem sent_sendHttpHeaders (statusCode : ℕ) (info file : List UInt8) (length : ℤ)
    {statusLine : List UInt8} (hstatus : statusLine ≠ [] ∧ (13 : UInt8) ∉ statusLine)
    (h : ascii "HTTP/1.1 " ++ Http.decimal statusCode ++ ascii " " ++ info = statusLine)
    (body : List UInt8) :
    sent (sendHttpHeaders statusCode info (getMimeType file) length) ++ body =
      (response statusLine hstatus file length body).bytes := by
  have hcrlf : ascii "\r\n" = crlf := by decide
  unfold sendHttpHeaders Http.Response.bytes response headLines
  rw [h, hcrlf]
  by_cases hpos : 0 < length <;>
    simp [hpos, sent, sends, Http.contentLength]

end WebServer
end UnixNetwork
