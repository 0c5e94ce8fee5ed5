import UnixNetwork.Kcp.Control

/-!
# What arrives

`ikcp_input` reads a datagram segment by segment.  Every segment brings the peer's
receive window and its `una`, the first number it has not received, which takes
everything before it out of `snd_buf` (`ikcp_parse_una`).  An acknowledgement takes
its own number out (`ikcp_parse_ack`) and gives a round trip time
(`ikcp_update_ack`); data is acknowledged (`ikcp_ack_push`) and put where it belongs
in `rcv_buf` (`ikcp_parse_data`); a probe asks for the window.

A turn of the loop leaves by `return` at a header that it does not accept, and what
the turns before did stays done.  `ikcpInput_eq` says the same with the parsing apart
from the state: the datagram is parsed to its accepted segments and a return code
(`parseSegs`), and the segments go through `inputSeg` one after the other.
-/

namespace UnixNetwork
namespace Kcp

open Bytes

/-! ## Acknowledgements -/

/-- `ikcp_update_ack`.  The intermediate results are `int`s, taken to wrap when they run over. -/
def ikcpUpdateAck (kcp : Ikcpcb) (rtt : ℤ) : Ikcpcb :=
  let kcp :=
    if kcp.rxSrtt = 0 then { kcp with rxSrtt := rtt, rxRttval := rtt.tdiv 2 }
    else
      let delta := |toInt (rtt - kcp.rxSrtt)|
      let srtt := (toInt (toInt (7 * kcp.rxSrtt) + rtt)).tdiv 8
      { kcp with
        rxRttval := toInt ((toInt (3 * kcp.rxRttval) + delta).tdiv 4)
        rxSrtt := if srtt < 1 then 1 else srtt }
  let rto := BitVec.ofInt 32 kcp.rxSrtt + imax kcp.interval (BitVec.ofInt 32 (4 * kcp.rxRttval))
  { kcp with rxRto := (ibound (BitVec.ofInt 32 kcp.rxMinrto) rto rtoMax).toInt }

/-- `ikcp_shrink_buf`. -/
def ikcpShrinkBuf (kcp : Ikcpcb) : Ikcpcb :=
  match kcp.sndBuf with
  | seg :: _ => { kcp with sndUna := seg.sn }
  | [] => { kcp with sndUna := kcp.sndNxt }

/-- The loop of `ikcp_parse_ack`: what is left of `snd_buf`, and how many it deleted. -/
def ackLoop (sn : IUINT32) : List Ikcpseg → List Ikcpseg × ℕ
  | [] => ([], 0)
  | seg :: rest =>
    if sn = seg.sn then (rest, 1)
    else if itimediff sn seg.sn < 0 then (seg :: rest, 0)
    else (seg :: (ackLoop sn rest).1, (ackLoop sn rest).2)

/-- `ikcp_parse_ack`. -/
def ikcpParseAck (kcp : Ikcpcb) (sn : IUINT32) : Ikcpcb :=
  if itimediff sn kcp.sndUna < 0 ∨ 0 ≤ itimediff sn kcp.sndNxt then kcp
  else
    { kcp with
      sndBuf := (ackLoop sn kcp.sndBuf).1
      nsndBuf := kcp.nsndBuf - BitVec.ofNat 32 (ackLoop sn kcp.sndBuf).2 }

/-- The loop of `ikcp_parse_una`: what is left of `snd_buf`, and how many it deleted. -/
def unaLoop (una : IUINT32) : List Ikcpseg → List Ikcpseg × ℕ
  | [] => ([], 0)
  | seg :: rest =>
    if 0 < itimediff una seg.sn then ((unaLoop una rest).1, (unaLoop una rest).2 + 1)
    else (seg :: rest, 0)

/-- `ikcp_parse_una`. -/
def ikcpParseUna (kcp : Ikcpcb) (una : IUINT32) : Ikcpcb :=
  { kcp with
    sndBuf := (unaLoop una kcp.sndBuf).1
    nsndBuf := kcp.nsndBuf - BitVec.ofNat 32 (unaLoop una kcp.sndBuf).2 }

/-- The loop of `ikcp_parse_fastack`. -/
def fastackLoop (sn : IUINT32) : List Ikcpseg → List Ikcpseg
  | [] => []
  | seg :: rest =>
    if itimediff sn seg.sn < 0 then seg :: rest
    else if sn ≠ seg.sn then { seg with fastack := seg.fastack + 1 } :: fastackLoop sn rest
    else seg :: fastackLoop sn rest

/-- `ikcp_parse_fastack`. -/
def ikcpParseFastack (kcp : Ikcpcb) (sn : IUINT32) : Ikcpcb :=
  if itimediff sn kcp.sndUna < 0 ∨ 0 ≤ itimediff sn kcp.sndNxt then kcp
  else { kcp with sndBuf := fastackLoop sn kcp.sndBuf }

/-- `ikcp_ack_push`. -/
def ikcpAckPush (kcp : Ikcpcb) (sn ts : IUINT32) : Ikcpcb :=
  { kcp with acklist := kcp.acklist ++ [(sn, ts)] }

/-! ## Data -/

/-- The search of `ikcp_parse_data` from the tail of `rcv_buf`, over its reverse: the buffer with
the new segment behind where the search stopped, or nothing when the number is there
already. -/
def insertBack (newseg : Ikcpseg) : List Ikcpseg → Option (List Ikcpseg)
  | [] => some [newseg]
  | seg :: before =>
    if seg.sn = newseg.sn then none
    else if 0 < itimediff newseg.sn seg.sn then some (newseg :: seg :: before)
    else (insertBack newseg before).map (seg :: ·)

/-- `ikcp_parse_data`. -/
def ikcpParseData (kcp : Ikcpcb) (newseg : Ikcpseg) : Ikcpcb :=
  if 0 ≤ itimediff newseg.sn (kcp.rcvNxt + kcp.rcvWnd) ∨ itimediff newseg.sn kcp.rcvNxt < 0 then kcp
  else
    let kcp :=
      match insertBack newseg kcp.rcvBuf.reverse with
      | some buf => { kcp with rcvBuf := buf.reverse, nrcvBuf := kcp.nrcvBuf + 1 }
      | none => kcp
    moveAvailable kcp

/-! ## The loop -/

/-- What the turns of the loop pass on. -/
structure InputState where
  kcp : Ikcpcb
  flag : Bool
  maxack : IUINT32
  deriving DecidableEq

/-- The branch for `IKCP_CMD_ACK`. -/
def inputAck (st : InputState) (sn ts : IUINT32) : InputState :=
  let kcp := st.kcp
  let kcp :=
    if 0 ≤ itimediff kcp.current ts then ikcpUpdateAck kcp (itimediff kcp.current ts) else kcp
  let kcp := ikcpShrinkBuf (ikcpParseAck kcp sn)
  if st.flag = false then { kcp := kcp, flag := true, maxack := sn }
  else if 0 < itimediff sn st.maxack then { kcp := kcp, flag := true, maxack := sn }
  else { st with kcp := kcp }

/-- The segment that `ikcp_input` allocates for data. -/
def newSegment (h : Header) (data : List UInt8) : Ikcpseg where
  conv := h.conv
  cmd := h.cmd.setWidth 32
  frg := h.frg.setWidth 32
  wnd := h.wnd.setWidth 32
  ts := h.ts
  sn := h.sn
  una := h.una
  data := data

/-- The branch for `IKCP_CMD_PUSH`. -/
def inputPush (kcp : Ikcpcb) (h : Header) (data : List UInt8) : Ikcpcb :=
  if itimediff h.sn (kcp.rcvNxt + kcp.rcvWnd) < 0 then
    let kcp := ikcpAckPush kcp h.sn h.ts
    if 0 ≤ itimediff h.sn kcp.rcvNxt then ikcpParseData kcp (newSegment h data) else kcp
  else kcp

/-- What a turn of the loop does with a header that it accepts, and the data behind it. -/
def inputSeg (st : InputState) (h : Header) (data : List UInt8) : InputState :=
  let kcp := { st.kcp with rmtWnd := h.wnd.setWidth 32 }
  let kcp := ikcpShrinkBuf (ikcpParseUna kcp h.una)
  if h.cmd.setWidth 32 = cmdAck then inputAck { st with kcp := kcp } h.sn h.ts
  else if h.cmd.setWidth 32 = cmdPush then { st with kcp := inputPush kcp h data }
  else if h.cmd.setWidth 32 = cmdWask then
    { st with kcp := { kcp with probe := kcp.probe ||| askTell } }
  else { st with kcp := kcp }

/-- The commands that `ikcp_input` knows. -/
def knownCmd (cmd : IUINT8) : Prop :=
  cmd.setWidth 32 = cmdPush ∨ cmd.setWidth 32 = cmdAck ∨ cmd.setWidth 32 = cmdWask ∨
    cmd.setWidth 32 = cmdWins

instance (cmd : IUINT8) : Decidable (knownCmd cmd) := inferInstanceAs (Decidable (_ ∨ _))

/-- The loop of `ikcp_input`, and what it returns.  A turn takes at least a header off the
datagram, so the length of the datagram is fuel enough. -/
def inputLoop : ℕ → InputState → List UInt8 → InputState × ℤ
  | 0, st, _ => (st, 0)
  | fuel + 1, st, data =>
    if data.length < overhead.toNat then (st, 0)
    else
      let h := (decodeHeader data).1
      let data := (decodeHeader data).2
      if h.conv ≠ st.kcp.conv then (st, -1)
      else if data.length < h.len.toNat ∨ h.len.toInt < 0 then (st, -2)
      else if ¬ knownCmd h.cmd then (st, -3)
      else
        inputLoop fuel (inputSeg st h (data.take h.len.toNat)) (data.drop h.len.toNat)

/-- The congestion window opened, by one below the threshold and slower above it. -/
def openCwnd (kcp : Ikcpcb) : Ikcpcb :=
  if kcp.cwnd < kcp.ssthresh then { kcp with cwnd := kcp.cwnd + 1, incr := kcp.incr + kcp.mss }
  else
    let mss := kcp.mss
    let incr := if kcp.incr < mss then mss else kcp.incr
    let incr := incr + (mss * mss / incr + mss / 16)
    { kcp with
      incr := incr
      cwnd := if (kcp.cwnd + 1) * mss ≤ incr then (incr + mss - 1) / (if 0 < mss then mss else 1)
        else kcp.cwnd }

/-- The congestion window after `snd_una` has moved on. -/
def growCwnd (kcp : Ikcpcb) : Ikcpcb :=
  let kcp := openCwnd kcp
  if kcp.rmtWnd < kcp.cwnd then { kcp with cwnd := kcp.rmtWnd, incr := kcp.rmtWnd * kcp.mss }
  else kcp

/-- What `ikcp_input` does behind its loop. -/
def inputEnd (prevUna : IUINT32) (st : InputState) : Ikcpcb :=
  let kcp := if st.flag then ikcpParseFastack st.kcp st.maxack else st.kcp
  if 0 < itimediff kcp.sndUna prevUna ∧ kcp.cwnd < kcp.rmtWnd then growCwnd kcp else kcp

/-- `ikcp_input`, of a datagram that is not NULL and has less than 2 ^ 31 bytes: the first test of
the source is on `(int)size`. -/
def ikcpInput (kcp : Ikcpcb) (data : List UInt8) : Ikcpcb × ℤ :=
  if data.length < overhead.toNat then (kcp, -1)
  else
    let (st, code) := inputLoop data.length { kcp := kcp, flag := false, maxack := 0 } data
    if code ≠ 0 then (st.kcp, code) else (inputEnd kcp.sndUna st, 0)

/-! ## Parsing apart from the state -/

/-- The segments of a datagram up to the first that is not accepted, and the return code. -/
def parseSegs (conv : IUINT32) : ℕ → List UInt8 → List (Header × List UInt8) × ℤ
  | 0, _ => ([], 0)
  | fuel + 1, data =>
    if data.length < overhead.toNat then ([], 0)
    else
      let h := (decodeHeader data).1
      let data := (decodeHeader data).2
      if h.conv ≠ conv then ([], -1)
      else if data.length < h.len.toNat ∨ h.len.toInt < 0 then ([], -2)
      else if ¬ knownCmd h.cmd then ([], -3)
      else
        let rest := parseSegs conv fuel (data.drop h.len.toNat)
        ((h, data.take h.len.toNat) :: rest.1, rest.2)

/-- The segments one after the other. -/
def inputSegs (st : InputState) (segs : List (Header × List UInt8)) : InputState :=
  segs.foldl (fun st seg => inputSeg st seg.1 seg.2) st

end Kcp
end UnixNetwork
