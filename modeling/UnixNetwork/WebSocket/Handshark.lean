import Mathlib.Data.List.Infix
import UnixNetwork.Bytes.Block

/-!
# The handshake of the C server

`readline`, `base64_encode` and `handshark` of `websocket/epoll_websocket.c`, as
far as they compute: from the bytes in the connection's buffers to the response,
if one is queued.  What the response does to the connection is in
`WebSocket.Reactor`.

## Memory

`handshark` walks `si->recvbuffer` as a C string, and nothing ends that string if
the peer fills the buffer: `strlen` then runs on into `sendbuffer`, which lies
right behind it, and at the latest stops at `rlength`, which `recv_cb` has just
set to `0`.  `allbuf` is that stretch of the item, so the model follows the walk
where it really goes.

A line is copied into `linebuf`, a stack array of 256 bytes.  A line that does
not leave room for the terminator, or for the terminator after the GUID has been
appended, is a write (or a read) past that array: `Fault.stackOverflow`, after
which nothing more is said about the run.  Likewise a digest text that does not
fit `sec_accept`, or is empty so that the code writes in front of it, is
`Fault.outOfBounds`.

SHA-1 and the base64 filter are OpenSSL's and enter as a parameter.
-/

namespace UnixNetwork
namespace WebSocket

open Bytes

/-- `BUFFER_LENGTH`. -/
def bufferLength : ℕ := 1024

/-- `GUID`. -/
def guid : List UInt8 := ascii "258EAFA5-E914-47DA-95CA-C5AB0DC85B11"

/-- The header name both servers look for. -/
def secWebSocketKey : List UInt8 := ascii "Sec-WebSocket-Key"

/-- The `101` response, around the value of its last header. -/
def switchingProtocols (secAccept : List UInt8) : List UInt8 :=
  ascii "HTTP/1.1 101 Switching Protocols\r\n" ++
    (ascii "Upgrade: websocket\r\n" ++
      (ascii "Connection: Upgrade\r\n" ++
        (ascii "Sec-WebSocket-Accept: " ++ (secAccept ++ ascii "\r\n\r\n"))))

theorem length_switchingProtocols (acc : List UInt8) :
    (switchingProtocols acc).length = acc.length + 101 := by
  simp only [switchingProtocols, List.length_append]
  have h : (ascii "HTTP/1.1 101 Switching Protocols\r\n").length = 34 ∧
      (ascii "Upgrade: websocket\r\n").length = 20 ∧
      (ascii "Connection: Upgrade\r\n").length = 21 ∧
      (ascii "Sec-WebSocket-Accept: ").length = 22 ∧
      (ascii "\r\n\r\n").length = 4 := by decide
  omega

/-- What the programs take from a cryptographic library: SHA-1, and the bytes
the base64 filter leaves in its memory sink. -/
structure OpenSSL where
  sha1 : List UInt8 → List UInt8
  length_sha1 : ∀ m, (sha1 m).length = 20
  base64Bio : List UInt8 → List UInt8

/-- What a run can do that C does not define, or defines as the end of it. -/
inductive Fault where
  | useAfterFree
  | doubleFree
  | outOfBounds
  | stackOverflow
  | outOfFuel
  deriving DecidableEq

namespace EpollWebsocketC

variable (O : OpenSSL)

/-! ## One line -/

/-- The loop of `readline`, on the rest of the string: the position after the
line end, or nothing (the code's `-1`) if the string ends first, and the bytes
copied to `linebuf`. -/
def readlineFrom : List UInt8 → ℕ → Option ℕ × List UInt8
  | [], _ => (none, [])
  | c :: rest, level =>
    if c = 13 ∧ rest.head? = some 10 then (some (level + 2), [])
    else
      let r := readlineFrom rest (level + 1)
      (r.1, c :: r.2)

/-- `readline(allbuf, level, linebuf)`. -/
def readline (allbuf : List UInt8) (level : ℕ) : Option ℕ × List UInt8 :=
  readlineFrom ((cstr allbuf).drop level) level

/-- A line end is two bytes, found in the string. -/
theorem readlineFrom_some {l : List UInt8} {level next : ℕ}
    (h : (readlineFrom l level).1 = some next) : level + 2 ≤ next ∧ next ≤ level + l.length := by
  induction l generalizing level with
  | nil => simp [readlineFrom] at h
  | cons c rest ih =>
    rw [readlineFrom] at h
    split at h
    · rename_i hcr
      have hrest : rest ≠ [] := by
        rintro rfl
        simp at hcr
      have hpos := List.length_pos_iff.mpr hrest
      have hnext : level + 2 = next := by simpa using h
      simp only [List.length_cons]
      omega
    · have := ih h
      simp only [List.length_cons]
      omega

/-! ## The answer to a key -/

/-- `base64_encode(in_str, in_len, out_str)`: what the filter gives is copied to
the 32 bytes of `sec_accept` and its last byte, a newline, becomes the
terminator. -/
def base64Encode (inStr : List UInt8) : Except Fault (List UInt8) :=
  let data := O.base64Bio inStr
  if data.length = 0 ∨ 32 < data.length then .error .outOfBounds else .ok (cstr data.dropLast)

/-- The body of the `if` in `handshark`, on the line that holds the key: append
the GUID, hash from offset `19` on, encode as many bytes of the digest as
`strlen` counts, and build the response. -/
def answer (line : List UInt8) : Except Fault (List UInt8) :=
  let linebuf := line ++ guid
  if 256 ≤ linebuf.length then .error .stackOverflow
  else
    let sha1Data := O.sha1 (linebuf.drop 19)
    (base64Encode O (cstr sha1Data)).map switchingProtocols

/-! ## The walk over the lines -/

/-- The `do`/`while` of `handshark`. -/
def handsharkLoop (allbuf : List UInt8) : ℕ → ℕ → Except Fault (Option (List UInt8))
  | 0, _ => .error .outOfFuel
  | fuel + 1, level =>
    let r := readline allbuf level
    if 256 ≤ r.2.length then .error .stackOverflow
    else if secWebSocketKey <:+: r.2 then (answer O r.2).map some
    else
      match r.1 with
      | none => .ok none
      | some level =>
        if allbuf.getD level 0 = 13 ∧ allbuf.getD (level + 1) 0 = 10 then .ok none
        else handsharkLoop allbuf fuel level

/-- The bytes `handshark` can walk over: the two buffers and `rlength`, which is
`0` at that point. -/
def allbuf (recvbuffer sendbuffer : Block UInt8 bufferLength) : List UInt8 :=
  recvbuffer.toList ++ sendbuffer.toList ++ [0, 0, 0, 0]

/-- `handshark`: the response it queues, if it finds a key. -/
def handshark (recvbuffer sendbuffer : Block UInt8 bufferLength) :
    Except Fault (Option (List UInt8)) :=
  handsharkLoop O (allbuf recvbuffer sendbuffer)
    ((allbuf recvbuffer sendbuffer).length + 1) 0

variable {O}

theorem base64Encode_cases (inStr : List UInt8) :
    base64Encode O inStr = .error .outOfBounds ∨
      ∃ acc, acc.length ≤ 31 ∧ base64Encode O inStr = .ok acc := by
  by_cases h : (O.base64Bio inStr).length = 0 ∨ 32 < (O.base64Bio inStr).length
  · exact Or.inl (if_pos h)
  · refine Or.inr ⟨cstr (O.base64Bio inStr).dropLast, ?_, if_neg h⟩
    have := cstr_length_le (O.base64Bio inStr).dropLast
    rw [List.length_dropLast] at this
    omega

/-- What `answer` can come to. -/
theorem answer_cases (line : List UInt8) :
    answer O line = .error .stackOverflow ∨ answer O line = .error .outOfBounds ∨
      ∃ acc, acc.length ≤ 31 ∧ answer O line = .ok (switchingProtocols acc) := by
  by_cases h : 256 ≤ (line ++ guid).length
  · exact Or.inl (if_pos h)
  · have hans : answer O line = (base64Encode O (cstr (O.sha1 ((line ++ guid).drop 19)))).map
        switchingProtocols := if_neg h
    rcases base64Encode_cases (O := O) (cstr (O.sha1 ((line ++ guid).drop 19))) with
      hb | ⟨acc, hacc, hb⟩
    · exact Or.inr (Or.inl (by rw [hans, hb]; rfl))
    · exact Or.inr (Or.inr ⟨acc, hacc, by rw [hans, hb]; rfl⟩)

/-- **What the walk can come to**, with enough steps allowed: it ends without an
answer, it queues a `101` response, or it leaves a stack array.  Each line read
moves `level` on by at least the two bytes of its end and never past the string,
so `strlen` many steps are enough. -/
theorem handsharkLoop_cases (allbuf : List UInt8) (fuel level : ℕ)
    (h : (cstr allbuf).length < level + fuel) (hlevel : level ≤ (cstr allbuf).length) :
    handsharkLoop O allbuf fuel level = .error .stackOverflow ∨
      handsharkLoop O allbuf fuel level = .error .outOfBounds ∨
      handsharkLoop O allbuf fuel level = .ok none ∨
      ∃ acc, acc.length ≤ 31 ∧
        handsharkLoop O allbuf fuel level = .ok (some (switchingProtocols acc)) := by
  induction fuel generalizing level with
  | zero => omega
  | succ fuel ih =>
    rw [handsharkLoop]
    by_cases h1 : 256 ≤ (readline allbuf level).2.length
    · exact Or.inl (if_pos h1)
    · rw [if_neg h1]
      by_cases h2 : secWebSocketKey <:+: (readline allbuf level).2
      · rw [if_pos h2]
        rcases answer_cases (O := O) (readline allbuf level).2 with ha | ha | ⟨acc, hacc, ha⟩
        · exact Or.inl (by rw [ha]; rfl)
        · exact Or.inr (Or.inl (by rw [ha]; rfl))
        · exact Or.inr (Or.inr (Or.inr ⟨acc, hacc, by rw [ha]; rfl⟩))
      · rw [if_neg h2]
        cases hnext : (readline allbuf level).1 with
        | none => exact Or.inr (Or.inr (Or.inl rfl))
        | some next =>
          have hb := readlineFrom_some hnext
          rw [List.length_drop] at hb
          by_cases h3 : allbuf.getD next 0 = 13 ∧ allbuf.getD (next + 1) 0 = 10
          · exact Or.inr (Or.inr (Or.inl (if_pos h3)))
          · dsimp only
            rw [if_neg h3]
            exact ih next (by omega) (by omega)

/-- `handshark` ends, and all it ever queues is a `101` response. -/
theorem handshark_cases (recvbuffer sendbuffer : Block UInt8 bufferLength) :
    handshark O recvbuffer sendbuffer = .error .stackOverflow ∨
      handshark O recvbuffer sendbuffer = .error .outOfBounds ∨
      handshark O recvbuffer sendbuffer = .ok none ∨
      ∃ acc, acc.length ≤ 31 ∧
        handshark O recvbuffer sendbuffer = .ok (some (switchingProtocols acc)) := by
  have hle := cstr_length_le (allbuf recvbuffer sendbuffer)
  exact handsharkLoop_cases _ _ 0 (by omega) (Nat.zero_le _)

end EpollWebsocketC

end WebSocket
end UnixNetwork
