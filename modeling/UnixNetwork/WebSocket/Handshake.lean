import UnixNetwork.Protocol.Upgrade
import UnixNetwork.WebSocket.DoString
import UnixNetwork.WebSocket.Reactor

/-!
# The handshake of the C++ server

`recv_cb`, `handshake` and `data_tranform` of `websocket/epoll_websocket.cpp`, on
one connection: its `sock_item` and what `epoll` waits for on its descriptor.

The strings of the item are byte strings without further structure, but what
`recv_cb` puts into `recv_buffer` is `string(buffer)`, the bytes before the first
NUL of a zeroed array.  A chunk that fills the array leaves no NUL in it, and the
constructor reads on: `Fault.outOfBounds`.

`handshake` works on vectors of strings.  `headers.end() - 2` needs two strings,
`headers[0]` one more, and the two indices into the split line a colon; where they
are missing the program leaves a vector, which is `Fault.outOfBounds` again.

`header_map` is read by `operator[]`, which gives the empty string for a name that
was never stored: it is a function here, updated once for each line.

SHA-1 is CryptoPP's and enters as a parameter.
-/

namespace UnixNetwork
namespace WebSocket
namespace EpollWebsocketCpp

open Bytes
open EpollWebsocketC (Fd Callback Events RecvResult)
open Upgrade (crlf colon)

/-- `buffer_size`. -/
def bufferSize : ℕ := 1500

/-- `enum WEBSOCKET_STATUS`. -/
inductive Status where
  | wsInit
  | wsHandshark
  | wsDatatransform
  | wsDataend
  deriving DecidableEq

/-- `struct sock_item`. -/
structure SockItem where
  sockFd : Fd
  callback : Callback
  recvBuffer : List UInt8
  sendBuffer : List UInt8
  status : Status
  slength : ℤ
  deriving DecidableEq

/-- A connection: its item, and the events registered for its descriptor. -/
structure Connection where
  si : SockItem
  events : Events
  deriving DecidableEq

/-- What the program takes from CryptoPP. -/
structure CryptoPP where
  sha1 : List UInt8 → List UInt8
  length_sha1 : ∀ m, (sha1 m).length = 20

variable (P : CryptoPP)

/-! ## The code -/

/-- `sha1_encode_return_bit`. -/
def sha1EncodeReturnBit (input : List UInt8) : List UInt8 := P.sha1 input

/-- The loop over the header lines, from `header_map` as it is so far. -/
def readHeaders : List (List UInt8) → (List UInt8 → List UInt8) →
    Except Fault (List UInt8 → List UInt8)
  | [], headerMap => .ok headerMap
  | res :: headers, headerMap =>
    match DoString.split res [colon] false with
    | none => .error .outOfFuel
    | some (name :: value :: _) =>
      readHeaders headers (Function.update headerMap name (DoString.trim value))
    | some _ => .error .outOfBounds

/-- The response, as it is put together. -/
def head (secAccept : List UInt8) : List UInt8 :=
  ascii "HTTP/1.1 101 Switching Protocols\r\n" ++ ascii "Upgrade: websocket\r\n" ++
    ascii "Connection: Upgrade\r\n" ++ (ascii "Sec-WebSocket-Accept: " ++ secAccept ++ ascii "\r\n")
    ++ ascii "\r\n"

/-- `handshake`. -/
def handshake (c : Connection) : Except Fault Connection :=
  match DoString.split c.si.recvBuffer crlf false with
  | none => .error .outOfFuel
  | some headers =>
    if headers.length < 2 then .error .outOfBounds
    else
      match headers.take (headers.length - 2) with
      | [] => .error .outOfBounds
      | _path :: headers =>
        match readHeaders headers fun _ => [] with
        | .error e => .error e
        | .ok headerMap =>
          if headerMap secWebSocketKey ≠ [] then
            let linebuf := headerMap secWebSocketKey ++ guid
            let out := sha1EncodeReturnBit P linebuf
            let secAccept := Base64.base64Encode out
            .ok
              { si := { c.si with
                  recvBuffer := []
                  sendBuffer := head secAccept
                  callback := .sendCb
                  status := .wsDatatransform }
                events := .outEt }
          else .ok c

/-- `data_tranform`: the frame is unmasked in place, printed, and dropped.  The
string has one byte more than its size, its terminator. -/
def dataTranform (c : Connection) : Except Fault Connection :=
  match decodePacket (Block.ofList (c.si.recvBuffer ++ [0])) c.si.recvBuffer.length with
  | none => .error .outOfBounds
  | some _ => .ok { c with si := { c.si with recvBuffer := [] } }

/-- `si->recv_buffer = string(buffer)`, with a chunk received into the zeroed
`buffer`. -/
def store (c : Connection) (chunk : List UInt8) : Except Fault Connection :=
  if (0 : UInt8) ∈ padTo bufferSize chunk then
    .ok { c with si := { c.si with recvBuffer := cstr (padTo bufferSize chunk) } }
  else .error .outOfBounds

/-- `recv_cb`.  No connection is left where it is closed and its item freed. -/
def recvCb (c : Connection) (ret : RecvResult) : Except Fault (Option Connection) :=
  let chunk := match ret with
    | .data chunk => chunk
    | _ => []
  match store c chunk with
  | .error e => .error e
  | .ok c =>
    match ret with
    | .again => .ok (some c)
    | .fail => .ok none
    | .eof => .ok none
    | .data _ =>
      match c.si.status with
      | .wsHandshark => (handshake P c).map some
      | .wsDatatransform => (dataTranform c).map some
      | _ => .ok (some c)

/-! ## The headers of a request -/

/-- `split` cuts a request into its lines, and two empty strings behind them. -/
theorem split_bytes (r : Upgrade.Request) :
    DoString.split r.bytes crlf false = some (r.lines ++ [[], []]) := by
  have hfree : ∀ p ∈ r.lines ++ [[]] ++ [[]], ¬ crlf <:+: p := by
    intro p hp
    rw [List.mem_append, List.mem_append, List.mem_singleton] at hp
    rcases hp with (hp | rfl) | rfl
    · exact r.crlf_free_of_mem_lines hp
    · decide
    · decide
  have hne : List.intercalate crlf (r.lines ++ [[]] ++ [[]]) ≠ [] := by
    rw [← r.bytes_eq]
    exact List.append_ne_nil_of_right_ne_nil _ (by decide)
  rw [r.bytes_eq, DoString.split,
    Split.splitWith_intercalate _ Upgrade.borderless_crlf (by decide) hfree hne]
  simp

/-- `split` cuts a header line into its name, the text before the next colon, and
what else there is. -/
theorem split_line (h : Upgrade.Header) :
    ∃ rest, DoString.split h.line [colon] false =
      some (h.name :: h.value.takeWhile (· ≠ colon) :: rest) := by
  refine ⟨(h.value.splitOn colon).tail, ?_⟩
  have hne : h.line ≠ [] := List.append_ne_nil_of_right_ne_nil _ (List.cons_ne_nil _ _)
  rw [DoString.split, Split.splitWith_singleton _ colon hne, Upgrade.Header.line,
    List.splitOn_append_cons_self_of_not_mem h.colon_notMem, Split.splitOn_eq_cons colon h.value]
  simp

/-- The white space of `trim` is white space. -/
theorem mem_whiteSpace : ∀ c : UInt8, decide (c ∈ DoString.whiteSpace) = Upgrade.white c :=
  forall_byte (by decide +kernel)

theorem trim_eq_strip (s : List UInt8) : DoString.trim s = Upgrade.strip s := by
  simp only [DoString.trim_eq, mem_whiteSpace]
  rfl

/-- What `header_map` holds after the loop: for each name, the text of its last
header.  Induction on the lines, with the map so far. -/
theorem readHeaders_line (hs : List Upgrade.Header) (headerMap : List UInt8 → List UInt8) :
    ∃ headerMap', readHeaders (hs.map Upgrade.Header.line) headerMap = .ok headerMap' ∧
      ∀ name, headerMap' name = ((hs.filter (·.name = name)).getLast?.map
        Upgrade.Header.text).getD (headerMap name) := by
  induction hs generalizing headerMap with
  | nil => exact ⟨headerMap, rfl, fun _ => rfl⟩
  | cons h hs ih =>
    obtain ⟨rest, hsplit⟩ := split_line h
    obtain ⟨headerMap', hread, hmap⟩ := ih (Function.update headerMap h.name h.text)
    refine ⟨headerMap', ?_, ?_⟩
    · rw [List.map_cons, readHeaders, hsplit]
      dsimp only
      rw [trim_eq_strip]
      exact hread
    · intro name
      rw [hmap name]
      by_cases hname : h.name = name
      · rw [List.filter_cons_of_pos (by simpa using hname), List.getLast?_cons]
        subst hname
        rw [Function.update_self]
        cases (hs.filter fun h' => decide (h'.name = h.name)).getLast? <;> rfl
      · rw [List.filter_cons_of_neg (by simpa using hname),
          Function.update_of_ne (Ne.symm hname)]

/-- The response is the one of `WebSocket.Handshark`. -/
theorem head_eq (secAccept : List UInt8) : head secAccept = switchingProtocols secAccept := by
  have hend : ascii "\r\n\r\n" = ascii "\r\n" ++ ascii "\r\n" := by decide
  simp only [head, switchingProtocols, hend, List.append_assoc]

variable {P}

/-- `handshake`, on a request in `recv_buffer`. -/
theorem handshake_bytes (c : Connection) (r : Upgrade.Request) (hr : c.si.recvBuffer = r.bytes) :
    handshake P c = .ok
      (if (r.lastText secWebSocketKey).getD [] ≠ [] then
        { si := { c.si with
            recvBuffer := []
            sendBuffer := switchingProtocols
              (Rfc4648.encode (P.sha1 ((r.lastText secWebSocketKey).getD [] ++ guid)))
            callback := .sendCb
            status := .wsDatatransform }
          events := .outEt }
      else c) := by
  obtain ⟨headerMap, hread, hmap⟩ := readHeaders_line r.headers fun _ => []
  have hkey : headerMap secWebSocketKey = (r.lastText secWebSocketKey).getD [] :=
    hmap secWebSocketKey
  have hlen : (r.lines ++ [[], []]).length = r.lines.length + 2 := by simp
  rw [handshake, hr, split_bytes]
  dsimp only
  rw [hlen, if_neg (by omega), Nat.add_sub_cancel, List.take_left]
  simp only [Upgrade.Request.lines, hread, hkey, head_eq, Base64.base64Encode_eq,
    sha1EncodeReturnBit]
  split <;> rfl

/-- What a chunk without NUL that does not fill the buffer leaves in
`recv_buffer`. -/
theorem store_eq (c : Connection) {chunk : List UInt8} (h0 : (0 : UInt8) ∉ chunk)
    (hlen : chunk.length < bufferSize) :
    store c chunk = .ok { c with si := { c.si with recvBuffer := chunk } } := by
  have hmem : (0 : UInt8) ∈ padTo bufferSize chunk := by
    refine List.mem_append_right _ (List.mem_replicate.mpr ⟨?_, rfl⟩)
    omega
  rw [store, if_pos hmem, cstr_padTo _ h0]

/-! ## The handshake -/

/-- `recv_cb` on a connection that waits for its handshake, when a whole request
arrives. -/
theorem recvCb_bytes (c : Connection) (r : Upgrade.Request) (h0 : (0 : UInt8) ∉ r.bytes)
    (hlen : r.bytes.length < bufferSize) (hstatus : c.si.status = .wsHandshark) :
    recvCb P c (.data r.bytes) =
      (handshake P { c with si := { c.si with recvBuffer := r.bytes } }).map some := by
  simp only [recvCb, store_eq c h0 hlen, hstatus]

/-- **The handshake.**  A request whose last key header has a text is answered
with the `101` response to that text, and the connection goes over to data; on
any other request all that changes is `recv_buffer`. -/
theorem handshake_correct (P : CryptoPP) (r : Upgrade.Request) (c : Connection)
    (h0 : (0 : UInt8) ∉ r.bytes) (hlen : r.bytes.length < 1500)
    (hstatus : c.si.status = .wsHandshark) :
    (∀ key, r.lastText secWebSocketKey = some key → key ≠ [] →
      recvCb P c (.data r.bytes) = .ok (some
        { si := { c.si with
            recvBuffer := []
            sendBuffer := switchingProtocols (Rfc4648.encode (P.sha1 (key ++ guid)))
            callback := .sendCb
            status := .wsDatatransform }
          events := .outEt })) ∧
    (r.lastText secWebSocketKey = none ∨ r.lastText secWebSocketKey = some [] →
      recvCb P c (.data r.bytes) = .ok (some
        { c with si := { c.si with recvBuffer := r.bytes } })) := by
  rw [recvCb_bytes c r h0 hlen hstatus, handshake_bytes _ r rfl]
  constructor
  · intro key hkey hne
    rw [hkey, Option.getD_some, if_pos hne]
    rfl
  · intro hkey
    have hnil : (r.lastText secWebSocketKey).getD [] = [] := by
      rcases hkey with hkey | hkey
      · rw [hkey]
        rfl
      · rw [hkey]
        rfl
    rw [hnil, if_neg (by simp)]
    rfl

/-- The request of the example in RFC 6455, with one more header. -/
def sampleUpgrade : Upgrade.Request where
  requestLine := ascii "GET /chat HTTP/1.1"
  headers :=
    [⟨ascii "Host", ascii " server.example.com:80", by decide, by decide⟩,
      ⟨secWebSocketKey, ascii " dGhlIHNhbXBsZSBub25jZQ==", by decide, by decide⟩]
  crlf_free := by decide

/-- A connection just accepted. -/
def sampleConnection : Connection where
  si :=
    { sockFd := 5, callback := .recvCb, recvBuffer := [], sendBuffer := [],
      status := .wsHandshark, slength := 0 }
  events := .inEt

/-- SHA-1 as far as the example needs it. -/
def sampleCryptoPP : CryptoPP :=
  ⟨EpollWebsocketC.sampleOpenSSL.sha1, EpollWebsocketC.sampleOpenSSL.length_sha1⟩

theorem handshake_correct_sample :
    (0 : UInt8) ∉ sampleUpgrade.bytes ∧ sampleUpgrade.bytes.length < 1500 ∧
      recvCb sampleCryptoPP sampleConnection (.data sampleUpgrade.bytes) = .ok (some
        { si :=
            { sockFd := 5, callback := .sendCb, recvBuffer := [], slength := 0,
              sendBuffer := switchingProtocols (ascii "s3pPLMBiTxaQ9kYGzzhZRbK+xOo="),
              status := .wsDatatransform }
          events := .outEt }) := by
  have h0 : (0 : UInt8) ∉ sampleUpgrade.bytes := by decide +kernel
  have hlen : sampleUpgrade.bytes.length < 1500 := by decide +kernel
  have hkey : sampleUpgrade.lastText secWebSocketKey = some EpollWebsocketC.sampleKey := by
    decide +kernel
  have haccept : Rfc4648.encode (sampleCryptoPP.sha1 (EpollWebsocketC.sampleKey ++ guid)) =
      ascii "s3pPLMBiTxaQ9kYGzzhZRbK+xOo=" := by decide +kernel
  have h := (handshake_correct sampleCryptoPP sampleUpgrade sampleConnection h0 hlen rfl).1 _ hkey
    (by decide)
  rw [haccept] at h
  exact ⟨h0, hlen, h⟩

end EpollWebsocketCpp
end WebSocket
end UnixNetwork
