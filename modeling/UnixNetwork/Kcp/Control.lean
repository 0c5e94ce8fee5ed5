import UnixNetwork.Kcp.Segment
import UnixNetwork.Arq.Framing

/-!
# The KCP control block

The state of one end of a session (`IKCPCB`) and what the application does with it:
`ikcp_create`, the settings, `ikcp_send`, `ikcp_peeksize`, `ikcp_recv` and
`ikcp_waitsnd`.

A message that is sent is cut into fragments, which go to `snd_queue`; a message that
is received is put together from the fragments at the front of `rcv_queue`.  The four
queues are lists, first segment first, and the counters that the source keeps beside
them are fields here as well, of 32 bits.  `acklist` is a list of pairs of a serial
number and a time.  Of `buffer`, in which `ikcp_flush` puts a datagram together, the
field `bufferSize` has the number of bytes that it was allocated with; what is in it is
a value of `ikcp_flush`.

An allocation that fails is not modelled: where the source returns -2 for one, the
functions here go on.

## The two halves of a message

`takeMessage_eq_front` is what `ikcp_recv` takes, in the terms of `Framing`: the front
of a stream of pieces that count down.  `countdown_fragments` and `bytesOf_fragments`
are what `ikcp_send` queues: pieces that count down, and that together are the message.
-/

namespace UnixNetwork
namespace Kcp

open Bytes

/-- `IKCPCB`, without the fields for the allocator, the log and the callbacks. -/
structure Ikcpcb where
  conv : IUINT32
  mtu : IUINT32
  mss : IUINT32
  state : IUINT32
  sndUna : IUINT32
  sndNxt : IUINT32
  rcvNxt : IUINT32
  ssthresh : IUINT32
  rxRttval : ℤ
  rxSrtt : ℤ
  rxRto : ℤ
  rxMinrto : ℤ
  sndWnd : IUINT32
  rcvWnd : IUINT32
  rmtWnd : IUINT32
  cwnd : IUINT32
  probe : IUINT32
  current : IUINT32
  interval : IUINT32
  tsFlush : IUINT32
  xmit : IUINT32
  nrcvBuf : IUINT32
  nsndBuf : IUINT32
  nrcvQue : IUINT32
  nsndQue : IUINT32
  nodelay : IUINT32
  updated : IUINT32
  tsProbe : IUINT32
  probeWait : IUINT32
  deadLink : IUINT32
  incr : IUINT32
  sndQueue : List Ikcpseg
  rcvQueue : List Ikcpseg
  sndBuf : List Ikcpseg
  rcvBuf : List Ikcpseg
  acklist : List (IUINT32 × IUINT32)
  bufferSize : IUINT32
  fastresend : ℤ
  fastlimit : ℤ
  nocwnd : ℤ
  stream : ℤ
  deriving DecidableEq, Repr

/-- `ikcp_create`. -/
def ikcpCreate (conv : IUINT32) : Ikcpcb where
  conv := conv
  mtu := mtuDef
  mss := mtuDef - overhead
  state := 0
  sndUna := 0
  sndNxt := 0
  rcvNxt := 0
  ssthresh := threshInit
  rxRttval := 0
  rxSrtt := 0
  rxRto := rtoDef.toInt
  rxMinrto := rtoMin.toInt
  sndWnd := wndSnd
  rcvWnd := wndRcv
  rmtWnd := wndRcv
  cwnd := 0
  probe := 0
  current := 0
  interval := intervalDef
  tsFlush := intervalDef
  xmit := 0
  nrcvBuf := 0
  nsndBuf := 0
  nrcvQue := 0
  nsndQue := 0
  nodelay := 0
  updated := 0
  tsProbe := 0
  probeWait := 0
  deadLink := deadlink
  incr := 0
  sndQueue := []
  rcvQueue := []
  sndBuf := []
  rcvBuf := []
  acklist := []
  bufferSize := (mtuDef + overhead) * 3
  fastresend := 0
  fastlimit := fastackLimit
  nocwnd := 0
  stream := 0

/-! ## Settings -/

/-- `ikcp_setmtu`. -/
def ikcpSetmtu (kcp : Ikcpcb) (mtu : ℤ) : Ikcpcb × ℤ :=
  if mtu < 50 ∨ mtu < overhead.toInt then (kcp, -1)
  else
    ({ kcp with
        mtu := BitVec.ofInt 32 mtu
        mss := BitVec.ofInt 32 mtu - overhead
        bufferSize := (BitVec.ofInt 32 mtu + overhead) * 3 }, 0)

/-- What an interval is brought to. -/
def clampInterval (interval : ℤ) : ℤ :=
  if 5000 < interval then 5000 else if interval < 10 then 10 else interval

/-- `ikcp_interval`. -/
def ikcpInterval (kcp : Ikcpcb) (interval : ℤ) : Ikcpcb :=
  { kcp with interval := BitVec.ofInt 32 (clampInterval interval) }

/-- `ikcp_nodelay`. -/
def ikcpNodelay (kcp : Ikcpcb) (nodelay interval resend nc : ℤ) : Ikcpcb :=
  let kcp :=
    if 0 ≤ nodelay then
      { kcp with
        nodelay := BitVec.ofInt 32 nodelay
        rxMinrto := if nodelay ≠ 0 then rtoNdl.toInt else rtoMin.toInt }
    else kcp
  let kcp := if 0 ≤ interval then ikcpInterval kcp interval else kcp
  let kcp := if 0 ≤ resend then { kcp with fastresend := resend } else kcp
  if 0 ≤ nc then { kcp with nocwnd := nc } else kcp

/-- `ikcp_wndsize`. -/
def ikcpWndsize (kcp : Ikcpcb) (sndwnd rcvwnd : ℤ) : Ikcpcb :=
  let kcp := if 0 < sndwnd then { kcp with sndWnd := BitVec.ofInt 32 sndwnd } else kcp
  if 0 < rcvwnd then { kcp with rcvWnd := imax (BitVec.ofInt 32 rcvwnd) wndRcv } else kcp

/-- `ikcp_waitsnd`. -/
def ikcpWaitsnd (kcp : Ikcpcb) : ℤ := (kcp.nsndBuf + kcp.nsndQue).toInt

/-! ## Sending -/

/-- The last segment of `snd_queue` filled up, in stream mode. -/
def topUp (kcp : Ikcpcb) (buffer : List UInt8) : Ikcpcb × List UInt8 :=
  match kcp.sndQueue.getLast? with
  | some old =>
    if old.data.length < kcp.mss.toNat then
      let capacity := kcp.mss.toNat - old.data.length
      let extend := if buffer.length < capacity then buffer.length else capacity
      let seg : Ikcpseg := { data := old.data ++ buffer.take extend, frg := 0 }
      ({ kcp with sndQueue := kcp.sndQueue.dropLast ++ [seg] }, buffer.drop extend)
    else (kcp, buffer)
  | none => (kcp, buffer)

/-- The segments that a buffer is cut into; those of a message say how many are left. -/
def fragments (stream : ℤ) (mss : ℕ) : ℕ → List UInt8 → List Ikcpseg
  | 0, _ => []
  | left + 1, buffer =>
    { frg := if stream = 0 then BitVec.ofNat 32 left else 0, data := buffer.take mss } ::
      fragments stream mss left (buffer.drop mss)

/-- How many fragments a buffer takes. -/
def fragmentCount (mss len : ℕ) : ℕ := if len ≤ mss then 1 else (len + mss - 1) / mss

/-- The second half of `ikcp_send`. -/
def queueFragments (kcp : Ikcpcb) (buffer : List UInt8) : Ikcpcb × ℤ :=
  let count := fragmentCount kcp.mss.toNat buffer.length
  if wndRcv.toNat ≤ count then (kcp, -2)
  else
    let count := if count = 0 then 1 else count
    ({ kcp with
        sndQueue := kcp.sndQueue ++ fragments kcp.stream kcp.mss.toNat count buffer
        nsndQue := kcp.nsndQue + BitVec.ofNat 32 count }, 0)

/-- `ikcp_send`, of a buffer that is not NULL. -/
def ikcpSend (kcp : Ikcpcb) (buffer : List UInt8) : Ikcpcb × ℤ :=
  if kcp.stream ≠ 0 then
    let (kcp, buffer) := topUp kcp buffer
    if buffer.length = 0 then (kcp, 0) else queueFragments kcp buffer
  else queueFragments kcp buffer

/-! ## Receiving -/

/-- The length of the message at the front of `rcv_queue`. -/
def messageLength : List Ikcpseg → ℕ
  | [] => 0
  | seg :: rest => if seg.frg = 0 then seg.data.length else seg.data.length + messageLength rest

/-- `ikcp_peeksize`. -/
def ikcpPeeksize (kcp : Ikcpcb) : ℤ :=
  match kcp.rcvQueue with
  | [] => -1
  | seg :: _ =>
    if seg.frg = 0 then seg.data.length
    else if kcp.nrcvQue < seg.frg + 1 then -1
    else messageLength kcp.rcvQueue

/-- The segments that the merging loop of `ikcp_recv` goes through, and those behind them. -/
def takeMessage : List Ikcpseg → List Ikcpseg × List Ikcpseg
  | [] => ([], [])
  | seg :: rest =>
    if seg.frg = 0 then ([seg], rest)
    else (seg :: (takeMessage rest).1, (takeMessage rest).2)

/-- The loop that moves what is next in order from `rcv_buf` to `rcv_queue`, over the segments
of `rcv_buf`. -/
def moveLoop (kcp : Ikcpcb) : List Ikcpseg → Ikcpcb
  | [] => { kcp with rcvBuf := [] }
  | seg :: rest =>
    if seg.sn = kcp.rcvNxt ∧ kcp.nrcvQue < kcp.rcvWnd then
      moveLoop { kcp with
        nrcvBuf := kcp.nrcvBuf - 1
        rcvQueue := kcp.rcvQueue ++ [seg]
        nrcvQue := kcp.nrcvQue + 1
        rcvNxt := kcp.rcvNxt + 1 } rest
    else { kcp with rcvBuf := seg :: rest }

def moveAvailable (kcp : Ikcpcb) : Ikcpcb := moveLoop kcp kcp.rcvBuf

/-- `ikcp_recv`: the return code, or what was put into the buffer.  A negative length only
looks. -/
def ikcpRecv (kcp : Ikcpcb) (len : ℤ) : Ikcpcb × Except ℤ (List UInt8) :=
  if kcp.rcvQueue = [] then (kcp, .error (-1))
  else
    let peeksize := ikcpPeeksize kcp
    if peeksize < 0 then (kcp, .error (-2))
    else if |len| < peeksize then (kcp, .error (-3))
    else
      let recover := kcp.rcvWnd ≤ kcp.nrcvQue
      let (taken, rest) := takeMessage kcp.rcvQueue
      let kcp :=
        if len < 0 then kcp
        else { kcp with rcvQueue := rest, nrcvQue := kcp.nrcvQue - BitVec.ofNat 32 taken.length }
      let kcp := moveAvailable kcp
      let kcp :=
        if kcp.nrcvQue < kcp.rcvWnd ∧ recover then { kcp with probe := kcp.probe ||| askTell }
        else kcp
      (kcp, .ok (taken.flatMap (·.data)))

/-! ## Fragments -/

/-- How many fragments of its message a segment says are left after it. -/
def Ikcpseg.left (seg : Ikcpseg) : ℕ := seg.frg.toNat

/-- The bytes that segments carry. -/
def bytesOf (segs : List Ikcpseg) : List UInt8 := segs.flatMap (·.data)

@[simp] theorem bytesOf_nil : bytesOf [] = [] := rfl

@[simp] theorem bytesOf_cons (seg : Ikcpseg) (segs : List Ikcpseg) :
    bytesOf (seg :: segs) = seg.data ++ bytesOf segs := rfl

@[simp] theorem bytesOf_append (segs segs' : List Ikcpseg) :
    bytesOf (segs ++ segs') = bytesOf segs ++ bytesOf segs' := List.flatMap_append

theorem frg_eq_zero_iff (seg : Ikcpseg) : seg.frg = 0 ↔ seg.left = 0 := by
  rw [Ikcpseg.left, ← BitVec.toNat_inj]
  rfl

/-- **The merging loop takes the front of the queue.** -/
theorem takeMessage_eq_front (segs : List Ikcpseg) :
    takeMessage segs = Framing.front Ikcpseg.left segs := by
  induction segs with
  | nil => rfl
  | cons seg rest ih =>
    unfold takeMessage Framing.front
    simp only [frg_eq_zero_iff, ih]

/-- What `ikcp_peeksize` measures is what the merging loop copies: the assertion
`len == peeksize`. -/
theorem messageLength_eq (segs : List Ikcpseg) :
    messageLength segs = (bytesOf (takeMessage segs).1).length := by
  induction segs with
  | nil => rfl
  | cons seg rest ih =>
    unfold messageLength takeMessage
    split
    · simp
    · simp [ih]

theorem length_fragments (stream : ℤ) (mss count : ℕ) (buffer : List UInt8) :
    (fragments stream mss count buffer).length = count := by
  induction count generalizing buffer with
  | zero => rfl
  | succ left ih => rw [fragments, List.length_cons, ih]

/-- **The fragments of a message count down.** -/
theorem countdown_fragments (mss : ℕ) {count : ℕ} (hcount : count < 2 ^ 32)
    (buffer : List UInt8) : Framing.Countdown Ikcpseg.left (fragments 0 mss count buffer) := by
  induction count generalizing buffer with
  | zero => exact trivial
  | succ left ih =>
    refine ⟨?_, ih (by omega) (buffer.drop mss)⟩
    rw [length_fragments]
    exact (BitVec.toNat_ofNat _ _).trans (Nat.mod_eq_of_lt (by omega))

/-- **The fragments of a buffer are the buffer**, when there are enough of them. -/
theorem bytesOf_fragments (stream : ℤ) (mss : ℕ) {count : ℕ} {buffer : List UInt8}
    (h : buffer.length ≤ count * mss) : bytesOf (fragments stream mss count buffer) = buffer := by
  induction count generalizing buffer with
  | zero => exact (List.eq_nil_of_length_eq_zero (by omega)).symm
  | succ left ih =>
    rw [fragments, bytesOf_cons, ih (by rw [List.length_drop, Nat.add_mul] at *; omega),
      List.take_append_drop]

theorem length_le_fragmentCount {mss : ℕ} (hmss : 0 < mss) (len : ℕ) :
    len ≤ fragmentCount mss len * mss := by
  unfold fragmentCount
  split
  · omega
  · have hdiv := Nat.lt_div_mul_add (a := len + mss - 1) hmss
    omega

theorem fragmentCount_pos {mss : ℕ} (hmss : 0 < mss) (len : ℕ) : 0 < fragmentCount mss len := by
  unfold fragmentCount
  split
  · exact Nat.one_pos
  · exact Nat.div_pos (by omega) hmss

/-- No fragment is longer than the segment size. -/
theorem length_data_fragments {stream : ℤ} {mss count : ℕ} {buffer : List UInt8} {seg : Ikcpseg}
    (h : seg ∈ fragments stream mss count buffer) : seg.data.length ≤ mss := by
  induction count generalizing buffer with
  | zero => exact absurd h List.not_mem_nil
  | succ left ih =>
    rcases List.mem_cons.mp h with rfl | h
    · exact List.length_take_le _ _
    · exact ih h

end Kcp
end UnixNetwork
