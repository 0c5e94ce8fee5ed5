import UnixNetwork.Kcp.Input

/-!
# What is sent

`ikcp_flush` fills datagrams, in this order: an acknowledgement for each pair of
`acklist`, a probe and an answer to a probe when they are due, and the segments of
`snd_buf` that have never been sent, whose timer has run out, or that enough later
segments were acknowledged ahead of.  Before the last part it numbers segments of
`snd_queue` as far as the window goes.  A datagram is handed to the output callback
when the next segment would take it over the `mtu` (`Out.room`), and the last one at
the end.

`ikcp_update` calls it every `interval`, and `ikcp_check` says when the next call of
`ikcp_update` is due.

A result of `ikcp_flush` is the control block and the datagrams, in the order in which
they went to the callback.
-/

namespace UnixNetwork
namespace Kcp

/-! ## Datagrams under construction -/

/-- What went to the output callback, and the bytes from `buffer` to `ptr`. -/
structure Out where
  sent : List (List UInt8) := []
  buffer : List UInt8 := []
  deriving DecidableEq, Repr

/-- `ikcp_output` of the buffer, which sends nothing when there is nothing. -/
def Out.output (out : Out) : Out where
  sent := if out.buffer.length = 0 then out.sent else out.sent ++ [out.buffer]
  buffer := []

/-- The test before each segment: the buffer goes out when `need` bytes would take it over the
`mtu`. -/
def Out.room (mtu : IUINT32) (need : ℕ) (out : Out) : Out :=
  if mtu.toInt < out.buffer.length + need then out.output else out

/-- A segment put into the datagram. -/
def Out.segment (mtu : IUINT32) (seg : Ikcpseg) (out : Out) : Out :=
  let out := out.room mtu (overhead.toNat + seg.data.length)
  { out with buffer := out.buffer ++ seg.wire }

/-! ## Acknowledgements and probes -/

/-- `ikcp_wnd_unused`. -/
def ikcpWndUnused (kcp : Ikcpcb) : IUINT32 :=
  if kcp.nrcvQue < kcp.rcvWnd then kcp.rcvWnd - kcp.nrcvQue else 0

/-- The acknowledgements; the last one's number and time stay in the segment that the probes
use. -/
def flushAcks (mtu : IUINT32) : List (IUINT32 × IUINT32) → Ikcpseg → Out → Ikcpseg × Out
  | [], seg, out => (seg, out)
  | (sn, ts) :: acks, seg, out =>
    let seg := { seg with sn := sn, ts := ts }
    flushAcks mtu acks seg (out.segment mtu seg)

/-- When the window of the peer is probed. -/
def probeWindow (kcp : Ikcpcb) : Ikcpcb :=
  if kcp.rmtWnd = 0 then
    if kcp.probeWait = 0 then
      { kcp with probeWait := probeInit, tsProbe := kcp.current + probeInit }
    else if 0 ≤ itimediff kcp.current kcp.tsProbe then
      let wait := if kcp.probeWait < probeInit then probeInit else kcp.probeWait
      let wait := wait + wait / 2
      let wait := if probeLimit < wait then probeLimit else wait
      { kcp with
        probeWait := wait
        tsProbe := kcp.current + wait
        probe := kcp.probe ||| askSend }
    else kcp
  else { kcp with tsProbe := 0, probeWait := 0 }

/-- One of the two window commands, when its bit is set. -/
def flushProbe (kcp : Ikcpcb) (bit cmd : IUINT32) (seg : Ikcpseg) (out : Out) : Ikcpseg × Out :=
  if kcp.probe &&& bit ≠ 0 then
    ({ seg with cmd := cmd }, out.segment kcp.mtu { seg with cmd := cmd })
  else (seg, out)

/-! ## Data -/

/-- The window that `ikcp_flush` sends in. -/
def flushCwnd (kcp : Ikcpcb) : IUINT32 :=
  let cwnd := imin kcp.sndWnd kcp.rmtWnd
  if kcp.nocwnd = 0 then imin kcp.cwnd cwnd else cwnd

/-- The loop that moves segments from `snd_queue` to `snd_buf` and numbers them, over the
segments of `snd_queue`. -/
def numberLoop (cwnd wnd : IUINT32) (kcp : Ikcpcb) : List Ikcpseg → Ikcpcb
  | [] => { kcp with sndQueue := [] }
  | newseg :: rest =>
    if itimediff kcp.sndNxt (kcp.sndUna + cwnd) < 0 then
      numberLoop cwnd wnd
        { kcp with
          sndBuf := kcp.sndBuf ++
            [{ newseg with
                conv := kcp.conv
                cmd := cmdPush
                wnd := wnd
                ts := kcp.current
                sn := kcp.sndNxt
                una := kcp.rcvNxt
                resendts := kcp.current
                rto := BitVec.ofInt 32 kcp.rxRto
                fastack := 0
                xmit := 0 }]
          nsndQue := kcp.nsndQue - 1
          nsndBuf := kcp.nsndBuf + 1
          sndNxt := kcp.sndNxt + 1 } rest
    else { kcp with sndQueue := newseg :: rest }

/-- Why a segment is sent. -/
inductive Cause where
  | first
  | timeout
  | fast
  deriving DecidableEq, Repr

/-- Whether a segment is sent. -/
def needsend (kcp : Ikcpcb) (resent : IUINT32) (segment : Ikcpseg) : Option Cause :=
  if segment.xmit = 0 then some .first
  else if 0 ≤ itimediff kcp.current segment.resendts then some .timeout
  else if resent ≤ segment.fastack then
    if segment.xmit.toInt ≤ kcp.fastlimit ∨ kcp.fastlimit ≤ 0 then some .fast else none
  else none

/-- The timer of a segment that ran out. -/
def backoff (kcp : Ikcpcb) (rto : IUINT32) : IUINT32 :=
  if kcp.nodelay = 0 then rto + imax rto (BitVec.ofInt 32 kcp.rxRto)
  else
    let step := if kcp.nodelay < 2 then rto.toInt else kcp.rxRto
    rto + BitVec.ofInt 32 (step.tdiv 2)

/-- The counters and the timer of a segment that is sent. -/
def retime (kcp : Ikcpcb) (rtomin : IUINT32) (segment : Ikcpseg) : Cause → Ikcpseg
  | .first =>
    { segment with
      xmit := segment.xmit + 1
      rto := BitVec.ofInt 32 kcp.rxRto
      resendts := kcp.current + BitVec.ofInt 32 kcp.rxRto + rtomin }
  | .timeout =>
    { segment with
      xmit := segment.xmit + 1
      rto := backoff kcp segment.rto
      resendts := kcp.current + backoff kcp segment.rto }
  | .fast =>
    { segment with
      xmit := segment.xmit + 1
      fastack := 0
      resendts := kcp.current + segment.rto }

/-- What the loop over `snd_buf` passes on. -/
structure Sending where
  kcp : Ikcpcb
  out : Out
  change : ℕ := 0
  lost : Bool := false

/-- A segment as it is sent. -/
def stamped (kcp : Ikcpcb) (wnd rtomin : IUINT32) (segment : Ikcpseg) (cause : Cause) : Ikcpseg :=
  { retime kcp rtomin segment cause with
    ts := kcp.current
    wnd := wnd
    una := kcp.rcvNxt }

/-- A segment that is sent, in the loop. -/
def Sending.transmit (s : Sending) (segment : Ikcpseg) (cause : Cause) : Sending where
  kcp :=
    { s.kcp with
      xmit := if cause = .timeout then s.kcp.xmit + 1 else s.kcp.xmit
      state := if s.kcp.deadLink ≤ segment.xmit then -1 else s.kcp.state }
  out := s.out.segment s.kcp.mtu segment
  change := if cause = .fast then s.change + 1 else s.change
  lost := s.lost || decide (cause = .timeout)

/-- The loop over `snd_buf`. -/
def sendLoop (wnd resent rtomin : IUINT32) : List Ikcpseg → Sending → List Ikcpseg × Sending
  | [], s => ([], s)
  | segment :: rest, s =>
    match needsend s.kcp resent segment with
    | none =>
      let r := sendLoop wnd resent rtomin rest s
      (segment :: r.1, r.2)
    | some cause =>
      let segment := stamped s.kcp wnd rtomin segment cause
      let r := sendLoop wnd resent rtomin rest (s.transmit segment cause)
      (segment :: r.1, r.2)

/-- How many acknowledgements ahead of a segment make it be sent again. -/
def resentOf (kcp : Ikcpcb) : IUINT32 :=
  if 0 < kcp.fastresend then BitVec.ofInt 32 kcp.fastresend else 0xffffffff

/-- What is added to the first timer of a segment. -/
def rtominOf (kcp : Ikcpcb) : IUINT32 :=
  if kcp.nodelay = 0 then BitVec.ofInt 32 (kcp.rxRto / 8) else 0

/-- Half of a window, and no less than the least threshold. -/
def halved (window : IUINT32) : IUINT32 :=
  if window / 2 < threshMin then threshMin else window / 2

/-- The congestion window after segments were sent again for acknowledgements ahead of them. -/
def afterFast (resent : IUINT32) (change : ℕ) (kcp : Ikcpcb) : Ikcpcb :=
  if change ≠ 0 then
    { kcp with
      ssthresh := halved (kcp.sndNxt - kcp.sndUna)
      cwnd := halved (kcp.sndNxt - kcp.sndUna) + resent
      incr := (halved (kcp.sndNxt - kcp.sndUna) + resent) * kcp.mss }
  else kcp

/-- The congestion window after a timer ran out. -/
def afterLost (cwnd : IUINT32) (lost : Bool) (kcp : Ikcpcb) : Ikcpcb :=
  if lost then { kcp with ssthresh := halved cwnd, cwnd := 1, incr := kcp.mss } else kcp

/-- The congestion window after a flush. -/
def congestion (cwnd resent : IUINT32) (change : ℕ) (lost : Bool) (kcp : Ikcpcb) : Ikcpcb :=
  let kcp := afterLost cwnd lost (afterFast resent change kcp)
  if kcp.cwnd < 1 then { kcp with cwnd := 1, incr := kcp.mss } else kcp

/-! ## Flushing -/

/-- The segment that `ikcp_flush` makes acknowledgements and probes from. -/
def controlSegment (kcp : Ikcpcb) : Ikcpseg where
  conv := kcp.conv
  cmd := cmdAck
  wnd := ikcpWndUnused kcp
  una := kcp.rcvNxt

/-- The acknowledgements and probes of a flush, and the control block behind them. -/
def flushControl (kcp : Ikcpcb) : Ikcpcb × Out :=
  let (seg, out) := flushAcks kcp.mtu kcp.acklist (controlSegment kcp) {}
  let kcp := probeWindow { kcp with acklist := [] }
  let (seg, out) := flushProbe kcp askSend cmdWask seg out
  let (_, out) := flushProbe kcp askTell cmdWins seg out
  ({ kcp with probe := 0 }, out)

/-- The data of a flush: numbered as far as the window goes, and sent when it is due. -/
def flushData (kcp : Ikcpcb) (out : Out) : Ikcpcb × Out :=
  let wnd := ikcpWndUnused kcp
  let cwnd := flushCwnd kcp
  let kcp := numberLoop cwnd wnd kcp kcp.sndQueue
  let resent := resentOf kcp
  let (buf, s) := sendLoop wnd resent (rtominOf kcp) kcp.sndBuf { kcp := kcp, out := out }
  (congestion cwnd resent s.change s.lost { s.kcp with sndBuf := buf }, s.out)

/-- `ikcp_flush`: the control block, and what went to the output callback. -/
def ikcpFlush (kcp : Ikcpcb) : Ikcpcb × List (List UInt8) :=
  if kcp.updated = 0 then (kcp, [])
  else
    let (kcp, out) := flushControl kcp
    let (kcp, out) := flushData kcp out
    (kcp, out.output.sent)

/-! ## The clock -/

/-- `ikcp_update`. -/
def ikcpUpdate (kcp : Ikcpcb) (current : IUINT32) : Ikcpcb × List (List UInt8) :=
  let kcp := { kcp with current := current }
  let kcp := if kcp.updated = 0 then { kcp with updated := 1, tsFlush := kcp.current } else kcp
  let slap := itimediff kcp.current kcp.tsFlush
  let late := 10000 ≤ slap ∨ slap < -10000
  let kcp := if late then { kcp with tsFlush := kcp.current } else kcp
  let slap := if late then 0 else slap
  if 0 ≤ slap then
    let next := kcp.tsFlush + kcp.interval
    ikcpFlush
      { kcp with
        tsFlush := if 0 ≤ itimediff kcp.current next then kcp.current + kcp.interval else next }
  else (kcp, [])

/-- The loop of `ikcp_check`: the time to the first segment that is due, or nothing when one is
due now. -/
def checkLoop (current : IUINT32) : List Ikcpseg → ℤ → Option ℤ
  | [], tmPacket => some tmPacket
  | seg :: rest, tmPacket =>
    let diff := itimediff seg.resendts current
    if diff ≤ 0 then none else checkLoop current rest (if diff < tmPacket then diff else tmPacket)

/-- `ikcp_check`. -/
def ikcpCheck (kcp : Ikcpcb) (current : IUINT32) : IUINT32 :=
  if kcp.updated = 0 then current
  else
    let slap := itimediff current kcp.tsFlush
    let tsFlush := if 10000 ≤ slap ∨ slap < -10000 then current else kcp.tsFlush
    if 0 ≤ itimediff current tsFlush then current
    else
      match checkLoop current kcp.sndBuf 0x7fffffff with
      | none => current
      | some tmPacket =>
        let tmFlush := itimediff tsFlush current
        let minimal := BitVec.ofInt 32 (if tmPacket < tmFlush then tmPacket else tmFlush)
        current + (if kcp.interval ≤ minimal then kcp.interval else minimal)

end Kcp
end UnixNetwork
