import UnixNetwork.Kcp.Datagram

/-!
# What a flush writes and sends

`ikcpFlush_spec` is the whole of `ikcp_flush` at once.  The control block afterwards is
a record update of the one before, and the datagrams are one list of segments put into
datagrams by `Out.segments`: the acknowledgements, the probes, and of the segments in
`snd_buf`, those just numbered included, the ones that are due.
-/

namespace UnixNetwork
namespace Kcp

/-! ## Numbering -/

/-- The `k`-th segment that is moved from `snd_queue` to `snd_buf`. -/
def numberedSeg (kcp : Ikcpcb) (wnd : IUINT32) (k : ℕ) (newseg : Ikcpseg) : Ikcpseg :=
  { newseg with
    conv := kcp.conv
    cmd := cmdPush
    wnd := wnd
    ts := kcp.current
    sn := kcp.sndNxt + BitVec.ofNat 32 k
    una := kcp.rcvNxt
    resendts := kcp.current
    rto := BitVec.ofInt 32 kcp.rxRto
    fastack := 0
    xmit := 0 }

/-- **How many segments are numbered**, and why no more. -/
theorem numberLoop_spec (cwnd wnd : IUINT32) (kcp : Ikcpcb) (queue : List Ikcpseg) :
    ∃ n, n ≤ queue.length ∧
      numberLoop cwnd wnd kcp queue =
        { kcp with
          sndQueue := queue.drop n
          sndBuf := kcp.sndBuf ++ (queue.take n).mapIdx (numberedSeg kcp wnd)
          nsndQue := kcp.nsndQue - BitVec.ofNat 32 n
          nsndBuf := kcp.nsndBuf + BitVec.ofNat 32 n
          sndNxt := kcp.sndNxt + BitVec.ofNat 32 n } ∧
      (∀ k < n, itimediff (kcp.sndNxt + BitVec.ofNat 32 k) (kcp.sndUna + cwnd) < 0) ∧
      (n < queue.length →
        0 ≤ itimediff (kcp.sndNxt + BitVec.ofNat 32 n) (kcp.sndUna + cwnd)) := by
  have hzero (x : IUINT32) : x + BitVec.ofNat 32 0 = x := BitVec.add_zero x
  induction queue generalizing kcp with
  | nil => exact ⟨0, le_rfl, by simp [numberLoop], by simp, by simp⟩
  | cons newseg rest ih =>
    unfold numberLoop
    by_cases hroom : itimediff kcp.sndNxt (kcp.sndUna + cwnd) < 0
    · rw [if_pos hroom]
      obtain ⟨n, hn, heq, hbelow, hstop⟩ := ih _
      refine ⟨n + 1, Nat.succ_le_succ hn, heq.trans ?_, ?_, ?_⟩
      · dsimp only
        rw [List.take_succ_cons, List.mapIdx_cons, List.drop_succ_cons, Serial.add_one_add,
          Serial.add_one_add, Serial.sub_one_sub, List.append_assoc]
        have hseg : (fun k => numberedSeg kcp wnd (k + 1)) =
            numberedSeg { kcp with
              sndBuf := kcp.sndBuf ++ [numberedSeg kcp wnd 0 newseg]
              nsndQue := kcp.nsndQue - 1
              nsndBuf := kcp.nsndBuf + 1
              sndNxt := kcp.sndNxt + 1 } wnd := by
          funext k seg
          simp only [numberedSeg, Serial.add_one_add]
        rw [hseg, show numberedSeg kcp wnd 0 newseg = { newseg with
          conv := kcp.conv, cmd := cmdPush, wnd := wnd, ts := kcp.current, sn := kcp.sndNxt
          una := kcp.rcvNxt, resendts := kcp.current, rto := BitVec.ofInt 32 kcp.rxRto
          fastack := 0, xmit := 0 } by rw [numberedSeg, hzero]]
        rfl
      · intro k hk
        cases k with
        | zero => rwa [hzero]
        | succ k =>
          rw [← Serial.add_one_add]
          exact hbelow k (Nat.lt_of_succ_lt_succ hk)
      · intro hlt
        rw [← Serial.add_one_add]
        exact hstop (Nat.lt_of_succ_lt_succ hlt)
    · rw [if_neg hroom]
      refine ⟨0, Nat.zero_le _, ?_, by simp, fun _ => ?_⟩
      · simp
      · rw [hzero]
        exact not_lt.mp hroom

/-! ## Sending -/

/-- A segment of `snd_buf` as it is sent, when it is due. -/
def due (kcp : Ikcpcb) (wnd resent rtomin : IUINT32) (segment : Ikcpseg) : Option Ikcpseg :=
  (needsend kcp resent segment).map (stamped kcp wnd rtomin segment)

/-- **The loop over `snd_buf`** sends what is due, and keeps it as it was sent. -/
theorem sendLoop_spec (wnd resent rtomin : IUINT32) (segs : List Ikcpseg) (s : Sending) :
    ∃ xmit state change lost, sendLoop wnd resent rtomin segs s =
      (segs.map fun seg => (due s.kcp wnd resent rtomin seg).getD seg,
        { kcp := { s.kcp with xmit := xmit, state := state }
          out := s.out.segments s.kcp.mtu (segs.filterMap (due s.kcp wnd resent rtomin))
          change := change
          lost := lost }) := by
  induction segs generalizing s with
  | nil => exact ⟨_, _, _, _, rfl⟩
  | cons seg rest ih =>
    unfold sendLoop
    cases hneed : needsend s.kcp resent seg with
    | none =>
      have hdue : due s.kcp wnd resent rtomin seg = none := by rw [due, hneed]; rfl
      obtain ⟨xmit, state, change, lost, heq⟩ := ih s
      refine ⟨xmit, state, change, lost, ?_⟩
      dsimp only
      rw [heq, List.map_cons, hdue, List.filterMap_cons_none hdue]
      rfl
    | some cause =>
      have hdue : due s.kcp wnd resent rtomin seg = some (stamped s.kcp wnd rtomin seg cause) := by
        rw [due, hneed]
        rfl
      obtain ⟨xmit, state, change, lost, heq⟩ :=
        ih (s.transmit (stamped s.kcp wnd rtomin seg cause) cause)
      refine ⟨xmit, state, change, lost, ?_⟩
      dsimp only
      rw [heq, List.map_cons, hdue, List.filterMap_cons_some hdue]
      rfl

theorem threshMin_le_halved (window : IUINT32) : threshMin ≤ halved window := by
  unfold halved
  split
  · exact BitVec.le_refl _
  · rename_i h
    exact BitVec.not_lt.mp h

theorem afterFast_frame (resent : IUINT32) (change : ℕ) (kcp : Ikcpcb) :
    ∃ ssthresh cwnd incr, afterFast resent change kcp =
      { kcp with ssthresh := ssthresh, cwnd := cwnd, incr := incr } ∧
      (ssthresh = kcp.ssthresh ∨ threshMin ≤ ssthresh) := by
  unfold afterFast
  split
  · exact ⟨_, _, _, rfl, .inr (threshMin_le_halved _)⟩
  · exact ⟨_, _, _, rfl, .inl rfl⟩

theorem afterLost_frame (cwnd : IUINT32) (lost : Bool) (kcp : Ikcpcb) :
    ∃ ssthresh cwnd' incr, afterLost cwnd lost kcp =
      { kcp with ssthresh := ssthresh, cwnd := cwnd', incr := incr } ∧
      (ssthresh = kcp.ssthresh ∨ threshMin ≤ ssthresh) := by
  unfold afterLost
  split
  · exact ⟨_, _, _, rfl, .inr (threshMin_le_halved _)⟩
  · exact ⟨_, _, _, rfl, .inl rfl⟩

/-- What a flush does to the congestion window. -/
theorem congestion_frame (cwnd resent : IUINT32) (change : ℕ) (lost : Bool) (kcp : Ikcpcb) :
    ∃ ssthresh cwnd' incr, congestion cwnd resent change lost kcp =
      { kcp with ssthresh := ssthresh, cwnd := cwnd', incr := incr } ∧
      (ssthresh = kcp.ssthresh ∨ threshMin ≤ ssthresh) ∧ 1 ≤ cwnd' := by
  obtain ⟨_, _, _, hfast, hthresh⟩ := afterFast_frame resent change kcp
  obtain ⟨ssthresh, _, _, hlost, hthresh'⟩ := afterLost_frame cwnd lost (afterFast resent change kcp)
  rw [hfast] at hthresh'
  have hkept : ssthresh = kcp.ssthresh ∨ threshMin ≤ ssthresh := by
    rcases hthresh' with rfl | hle
    · exact hthresh
    · exact .inr hle
  unfold congestion
  rw [hlost, hfast]
  dsimp only
  split
  · exact ⟨_, _, _, rfl, hkept, BitVec.le_refl _⟩
  · rename_i hcwnd
    exact ⟨_, _, _, rfl, hkept, BitVec.not_lt.mp hcwnd⟩

/-! ## Acknowledgements and probes -/

theorem flushAcks_spec (mtu : IUINT32) (acks : List (IUINT32 × IUINT32)) (seg : Ikcpseg)
    (out : Out) :
    ∃ sn ts, flushAcks mtu acks seg out =
      ({ seg with sn := sn, ts := ts },
        out.segments mtu (acks.map fun ack => { seg with sn := ack.1, ts := ack.2 })) := by
  induction acks generalizing seg out with
  | nil => exact ⟨_, _, rfl⟩
  | cons ack acks ih =>
    obtain ⟨sn, ts⟩ := ack
    exact ih { seg with sn := sn, ts := ts } (out.segment mtu { seg with sn := sn, ts := ts })

/-- A time between two probes of the window, or that none is due. -/
def ProbeTime (wait : IUINT32) : Prop := wait = 0 ∨ probeInit ≤ wait ∧ wait ≤ probeLimit

/-- The next time between two probes is half as long again, up to the limit. -/
theorem probeTime_next {wait : IUINT32} (h : ProbeTime wait) (hne : wait ≠ 0) :
    let longer := (if wait < probeInit then probeInit else wait) +
      (if wait < probeInit then probeInit else wait) / 2
    probeInit ≤ (if probeLimit < longer then probeLimit else longer) ∧
      (if probeLimit < longer then probeLimit else longer) ≤ probeLimit := by
  obtain hzero | ⟨hge, hle⟩ := h
  · exact absurd hzero hne
  dsimp only
  rw [if_neg (BitVec.not_lt.mpr hge)]
  have hinit : probeInit.toNat = 7000 := rfl
  have hlimit : probeLimit.toNat = 120000 := rfl
  rw [BitVec.le_def] at hge hle
  have hhalf : (wait / 2).toNat = wait.toNat / 2 := BitVec.toNat_udiv
  have hlonger : (wait + wait / 2).toNat = wait.toNat + wait.toNat / 2 := by
    rw [BitVec.toNat_add, hhalf]
    omega
  split
  · exact ⟨by decide, BitVec.le_refl _⟩
  · rename_i hlt
    refine ⟨?_, BitVec.not_lt.mp hlt⟩
    rw [BitVec.le_def, hlonger]
    omega

theorem ne_zero_of_probeInit_le {wait : IUINT32} (h : probeInit ≤ wait) : wait ≠ 0 := by
  rintro rfl
  exact absurd h (by decide)

/-- When the window is probed, the timer and the pending commands change; while the peer has no
window, a time is set. -/
theorem probeWindow_frame (kcp : Ikcpcb) :
    ∃ ts wait probe, probeWindow kcp =
      { kcp with tsProbe := ts, probeWait := wait, probe := probe } ∧
      (ProbeTime kcp.probeWait → ProbeTime wait ∧ (kcp.rmtWnd = 0 → wait ≠ 0)) := by
  unfold probeWindow
  split
  · split
    · refine ⟨_, _, _, rfl, fun _ => ⟨.inr ⟨BitVec.le_refl _, by decide⟩, fun _ => ?_⟩⟩
      exact ne_zero_of_probeInit_le (BitVec.le_refl _)
    · rename_i hne
      split
      · refine ⟨_, _, _, rfl, fun h => ?_⟩
        have hnext := probeTime_next h hne
        exact ⟨.inr hnext, fun _ => ne_zero_of_probeInit_le hnext.1⟩
      · exact ⟨_, _, _, rfl, fun h => ⟨h, fun _ => hne⟩⟩
  · rename_i hopen
    exact ⟨_, _, _, rfl, fun _ => ⟨.inl rfl, fun hzero => absurd hzero hopen⟩⟩

/-- A segment that carries nothing but a window. -/
structure IsProbe (kcp : Ikcpcb) (seg : Ikcpseg) : Prop where
  conv : seg.conv = kcp.conv
  cmd : seg.cmd = cmdWask ∨ seg.cmd = cmdWins
  wnd : seg.wnd = ikcpWndUnused kcp
  una : seg.una = kcp.rcvNxt
  frg : seg.frg = 0
  data : seg.data = []

theorem flushProbe_spec (kcp : Ikcpcb) (bit cmd : IUINT32) (seg : Ikcpseg) (out : Out) :
    ∃ cmd' probes, flushProbe kcp bit cmd seg out =
      ({ seg with cmd := cmd' }, out.segments kcp.mtu probes) ∧
      (∀ probe ∈ probes, probe = { seg with cmd := cmd }) ∧
      (kcp.probe &&& bit ≠ 0 → { seg with cmd := cmd } ∈ probes) := by
  unfold flushProbe
  split
  · exact ⟨cmd, [{ seg with cmd := cmd }], rfl, fun _ h => List.mem_singleton.mp h,
      fun _ => List.mem_singleton_self _⟩
  · rename_i hbit
    exact ⟨seg.cmd, [], rfl, fun _ h => absurd h List.not_mem_nil, fun h => absurd h hbit⟩

/-- The acknowledgements of a flush. -/
def ackSegs (kcp : Ikcpcb) : List Ikcpseg :=
  kcp.acklist.map fun ack => { controlSegment kcp with sn := ack.1, ts := ack.2 }

/-- The probes of a flush: what they are, and which are there. -/
structure Probes (kcp : Ikcpcb) (probes : List Ikcpseg) : Prop where
  all : ∀ seg ∈ probes, IsProbe kcp seg
  ask : (probeWindow kcp).probe &&& askSend ≠ 0 → ∃ seg ∈ probes, seg.cmd = cmdWask
  tell : (probeWindow kcp).probe &&& askTell ≠ 0 → probes ≠ []

theorem flushControl_spec (kcp : Ikcpcb) :
    ∃ ts wait probes, flushControl kcp =
      ({ kcp with acklist := [], probe := 0, tsProbe := ts, probeWait := wait },
        Out.segments kcp.mtu (ackSegs kcp ++ probes) {}) ∧
      (ProbeTime kcp.probeWait → ProbeTime wait ∧ (kcp.rmtWnd = 0 → wait ≠ 0)) ∧
      Probes kcp probes := by
  obtain ⟨sn, ts, hacks⟩ := flushAcks_spec kcp.mtu kcp.acklist (controlSegment kcp) {}
  obtain ⟨tsProbe, wait, bits, hprobe, hwait⟩ := probeWindow_frame { kcp with acklist := [] }
  have hbits : (probeWindow { kcp with acklist := [] }).probe = (probeWindow kcp).probe := by
    unfold probeWindow
    dsimp only
    split_ifs <;> rfl
  obtain ⟨cmd₁, probes₁, hask, hask', hwask⟩ :=
    flushProbe_spec (probeWindow { kcp with acklist := [] })
      askSend cmdWask { controlSegment kcp with sn := sn, ts := ts }
      (Out.segments kcp.mtu (ackSegs kcp) {})
  obtain ⟨cmd₂, probes₂, htell, htell', hwins⟩ :=
    flushProbe_spec (probeWindow { kcp with acklist := [] })
      askTell cmdWins { controlSegment kcp with sn := sn, ts := ts, cmd := cmd₁ }
      ((Out.segments kcp.mtu (ackSegs kcp) {}).segments kcp.mtu probes₁)
  refine ⟨tsProbe, wait, probes₁ ++ probes₂, ?_, hwait, ?_, ?_, ?_⟩
  · unfold flushControl
    rw [hacks]
    dsimp only
    rw [show (probeWindow { kcp with acklist := [] }).mtu = kcp.mtu by rw [hprobe]] at hask htell
    rw [← ackSegs, hask]
    dsimp only
    rw [htell, hprobe, Out.segments_append, Out.segments_append]
  · intro seg hseg
    rcases List.mem_append.mp hseg with hseg | hseg
    · rw [hask' seg hseg]
      exact ⟨rfl, .inl rfl, rfl, rfl, rfl, rfl⟩
    · rw [htell' seg hseg]
      exact ⟨rfl, .inr rfl, rfl, rfl, rfl, rfl⟩
  · intro hbit
    rw [← hbits] at hbit
    exact ⟨_, List.mem_append_left _ (hwask hbit), rfl⟩
  · intro hbit hnil
    rw [← hbits] at hbit
    exact List.ne_nil_of_mem (List.mem_append_right probes₁ (hwins hbit)) hnil

/-! ## Flushing -/

/-- What a flush keeps of `snd_queue` and makes of `snd_buf`, for `n` segments numbered. -/
def flushBuf (kcp : Ikcpcb) (n : ℕ) : List Ikcpseg :=
  kcp.sndBuf ++ (kcp.sndQueue.take n).mapIdx (numberedSeg kcp (ikcpWndUnused kcp))

/-- The segments of a flush that are due. -/
def flushDue (kcp : Ikcpcb) : Ikcpseg → Option Ikcpseg :=
  due kcp (ikcpWndUnused kcp) (resentOf kcp) (rtominOf kcp)

/-- The data of a flush. -/
theorem flushData_spec (kcp : Ikcpcb) (out : Out) :
    ∃ n xmit state ssthresh cwnd incr, n ≤ kcp.sndQueue.length ∧
      (∀ k < n, itimediff (kcp.sndNxt + BitVec.ofNat 32 k) (kcp.sndUna + flushCwnd kcp) < 0) ∧
      (n < kcp.sndQueue.length →
        0 ≤ itimediff (kcp.sndNxt + BitVec.ofNat 32 n) (kcp.sndUna + flushCwnd kcp)) ∧
      ((ssthresh = kcp.ssthresh ∨ threshMin ≤ ssthresh) ∧ 1 ≤ cwnd) ∧
      flushData kcp out =
        ({ kcp with
            xmit := xmit, state := state, ssthresh := ssthresh, cwnd := cwnd, incr := incr
            sndQueue := kcp.sndQueue.drop n
            sndBuf := (flushBuf kcp n).map fun seg => (flushDue kcp seg).getD seg
            nsndQue := kcp.nsndQue - BitVec.ofNat 32 n
            nsndBuf := kcp.nsndBuf + BitVec.ofNat 32 n
            sndNxt := kcp.sndNxt + BitVec.ofNat 32 n },
          out.segments kcp.mtu ((flushBuf kcp n).filterMap (flushDue kcp))) := by
  obtain ⟨n, hn, hnumber, hbelow, hstop⟩ :=
    numberLoop_spec (flushCwnd kcp) (ikcpWndUnused kcp) kcp kcp.sndQueue
  -- the control block behind the numbering, and what the rest reads of it
  obtain ⟨numbered, hnumbered⟩ : ∃ numbered,
      numberLoop (flushCwnd kcp) (ikcpWndUnused kcp) kcp kcp.sndQueue = numbered := ⟨_, rfl⟩
  rw [hnumbered] at hnumber
  have hbuf : numbered.sndBuf = flushBuf kcp n := by rw [hnumber]; rfl
  have hdue : due numbered (ikcpWndUnused kcp) (resentOf numbered) (rtominOf numbered) =
      flushDue kcp := by rw [hnumber]; rfl
  obtain ⟨xmit, state, change, lost, hsend⟩ := sendLoop_spec (ikcpWndUnused kcp) (resentOf numbered)
    (rtominOf numbered) numbered.sndBuf { kcp := numbered, out := out }
  obtain ⟨ssthresh, cwnd, incr, hcong, hwindow⟩ := congestion_frame (flushCwnd kcp) (resentOf numbered)
    change lost
    { numbered with
      xmit := xmit, state := state
      sndBuf := (flushBuf kcp n).map fun seg => (flushDue kcp seg).getD seg }
  rw [hnumber] at hwindow
  refine ⟨n, xmit, state, ssthresh, cwnd, incr, hn, hbelow, hstop, hwindow, ?_⟩
  unfold flushData
  dsimp only at hsend ⊢
  rw [hdue, hbuf] at hsend
  rw [hnumbered, hbuf, hsend]
  dsimp only
  rw [hcong, hnumber]

/-- What a flush makes of the congestion window and of the time between probes. -/
structure Retuned (kcp : Ikcpcb) (ssthresh cwnd wait : IUINT32) : Prop where
  ssthresh : ssthresh = kcp.ssthresh ∨ threshMin ≤ ssthresh
  cwnd : 1 ≤ cwnd
  wait : ProbeTime kcp.probeWait → ProbeTime wait ∧ (kcp.rmtWnd = 0 → wait ≠ 0)

/-- **`ikcp_flush`.** -/
theorem ikcpFlush_spec {kcp : Ikcpcb} (hupdated : kcp.updated ≠ 0) :
    ∃ n probes ts wait xmit state ssthresh cwnd incr,
      n ≤ kcp.sndQueue.length ∧
      (∀ k < n, itimediff (kcp.sndNxt + BitVec.ofNat 32 k) (kcp.sndUna + flushCwnd kcp) < 0) ∧
      (n < kcp.sndQueue.length →
        0 ≤ itimediff (kcp.sndNxt + BitVec.ofNat 32 n) (kcp.sndUna + flushCwnd kcp)) ∧
      Probes kcp probes ∧ Retuned kcp ssthresh cwnd wait ∧
      ikcpFlush kcp =
        ({ kcp with
            acklist := [], probe := 0, tsProbe := ts, probeWait := wait
            xmit := xmit, state := state, ssthresh := ssthresh, cwnd := cwnd, incr := incr
            sndQueue := kcp.sndQueue.drop n
            sndBuf := (flushBuf kcp n).map fun seg => (flushDue kcp seg).getD seg
            nsndQue := kcp.nsndQue - BitVec.ofNat 32 n
            nsndBuf := kcp.nsndBuf + BitVec.ofNat 32 n
            sndNxt := kcp.sndNxt + BitVec.ofNat 32 n },
          ((Out.segments kcp.mtu
            (ackSegs kcp ++ probes ++ (flushBuf kcp n).filterMap (flushDue kcp)) {}).output).sent) := by
  obtain ⟨ts, wait, probes, hcontrol, hwait, hprobes⟩ := flushControl_spec kcp
  obtain ⟨n, xmit, state, ssthresh, cwnd, incr, hn, hbelow, hstop, ⟨hthresh, hcwnd⟩, hdata⟩ :=
    flushData_spec { kcp with acklist := [], probe := 0, tsProbe := ts, probeWait := wait }
      (Out.segments kcp.mtu (ackSegs kcp ++ probes) {})
  refine ⟨n, probes, ts, wait, xmit, state, ssthresh, cwnd, incr, hn, hbelow, hstop, hprobes,
    ⟨hthresh, hcwnd, hwait⟩, ?_⟩
  unfold ikcpFlush
  rw [if_neg hupdated, hcontrol]
  dsimp only
  rw [hdata, Out.segments_append kcp.mtu (ackSegs kcp ++ probes)]
  rfl

/-- The segments that a flush sends: acknowledgements, probes, and what is in `snd_buf` after
it. -/
inductive FlushSeg (kcp : Ikcpcb) (seg : Ikcpseg) : Prop where
  | ack : seg ∈ ackSegs kcp → FlushSeg kcp seg
  | probe : IsProbe kcp seg → FlushSeg kcp seg
  | data : seg ∈ (ikcpFlush kcp).1.sndBuf → seg.wnd = ikcpWndUnused kcp → seg.una = kcp.rcvNxt →
    FlushSeg kcp seg

/-- Each tells the window, -/
theorem FlushSeg.wnd {kcp : Ikcpcb} {seg : Ikcpseg} (h : FlushSeg kcp seg) :
    seg.wnd = ikcpWndUnused kcp := by
  cases h with
  | ack hack =>
    obtain ⟨ack, -, rfl⟩ := List.mem_map.mp hack
    rfl
  | probe hprobe => exact hprobe.wnd
  | data _ hwnd _ => exact hwnd

/-- and what has arrived in order. -/
theorem FlushSeg.una {kcp : Ikcpcb} {seg : Ikcpseg} (h : FlushSeg kcp seg) :
    seg.una = kcp.rcvNxt := by
  cases h with
  | ack hack =>
    obtain ⟨ack, -, rfl⟩ := List.mem_map.mp hack
    rfl
  | probe hprobe => exact hprobe.una
  | data _ _ huna => exact huna

/-- What a flush has to send: an acknowledgement, a segment of `snd_buf` that is due, a probe that
asks. -/
inductive FlushDue (kcp : Ikcpcb) (seg : Ikcpseg) : Prop where
  | ack : seg ∈ ackSegs kcp → FlushDue kcp seg
  | data : ∀ old ∈ kcp.sndBuf, flushDue kcp old = some seg → FlushDue kcp seg

/-- **The datagrams of a flush**: they are made up of its segments, and nothing that is to be sent
is left out. -/
theorem ikcpFlush_datagrams {kcp : Ikcpcb} (hupdated : kcp.updated ≠ 0) :
    ∃ groups : List (List Ikcpseg), (ikcpFlush kcp).2 = groups.map wires ∧
      (∀ g ∈ groups, Fits kcp.mtu g ∧ ∀ seg ∈ g, FlushSeg kcp seg) ∧
      (∀ seg, FlushDue kcp seg → ∃ g ∈ groups, seg ∈ g) ∧
      ((probeWindow kcp).probe &&& askSend ≠ 0 → ∃ g ∈ groups, ∃ seg ∈ g, seg.cmd = cmdWask) ∧
      ((probeWindow kcp).probe &&& askTell ≠ 0 → groups ≠ []) := by
  obtain ⟨n, probes, _, _, _, _, _, _, _, -, -, -, hprobes, -, heq⟩ := ikcpFlush_spec hupdated
  obtain ⟨groups, hflat, hfits, hsent⟩ := packed_segments kcp.mtu
    (ackSegs kcp ++ probes ++ (flushBuf kcp n).filterMap (flushDue kcp))
  have hmem {seg : Ikcpseg}
      (h : seg ∈ ackSegs kcp ++ probes ++ (flushBuf kcp n).filterMap (flushDue kcp)) :
      ∃ g ∈ groups, seg ∈ g := by
    rw [← hflat] at h
    exact List.mem_flatten.mp h
  refine ⟨groups, (congrArg Prod.snd heq).trans hsent, fun g hg => ⟨hfits g hg, ?_⟩, ?_, ?_, ?_⟩
  · intro seg hseg
    have hin : seg ∈ ackSegs kcp ++ probes ++ (flushBuf kcp n).filterMap (flushDue kcp) := by
      rw [← hflat]
      exact List.mem_flatten.mpr ⟨g, hg, hseg⟩
    rcases List.mem_append.mp hin with hin | hin
    · rcases List.mem_append.mp hin with hack | hprobe
      · exact .ack hack
      · exact .probe (hprobes.all seg hprobe)
    · obtain ⟨a, ha, hdue⟩ := List.mem_filterMap.mp hin
      obtain ⟨cause, -, hstamped⟩ := Option.map_eq_some_iff.mp hdue
      refine .data ?_ (hstamped ▸ rfl) (hstamped ▸ rfl)
      rw [congrArg Prod.fst heq]
      refine List.mem_map.mpr ⟨a, ha, ?_⟩
      rw [hdue]
      rfl
  · intro seg hdue
    cases hdue with
    | ack hack => exact hmem (List.mem_append_left _ (List.mem_append_left _ hack))
    | data old hold hdue =>
      exact hmem (List.mem_append_right _
        (List.mem_filterMap.mpr ⟨old, List.mem_append_left _ hold, hdue⟩))
  · intro hbit
    obtain ⟨seg, hseg, hcmd⟩ := hprobes.ask hbit
    obtain ⟨g, hg, hin⟩ := hmem (List.mem_append_left _ (List.mem_append_right _ hseg))
    exact ⟨g, hg, seg, hin, hcmd⟩
  · intro hbit
    obtain ⟨seg, hseg⟩ := List.exists_mem_of_ne_nil _ (hprobes.tell hbit)
    obtain ⟨g, hg, -⟩ := hmem (List.mem_append_left _ (List.mem_append_right _ hseg))
    exact List.ne_nil_of_mem hg

/-- A datagram of a flush. -/
theorem ikcpFlush_datagram {kcp : Ikcpcb} {d : List UInt8} (hd : d ∈ (ikcpFlush kcp).2) :
    ∃ segs, d = wires segs ∧ Fits kcp.mtu segs ∧ ∀ seg ∈ segs, FlushSeg kcp seg := by
  by_cases hupdated : kcp.updated = 0
  · rw [ikcpFlush, if_pos hupdated] at hd
    exact absurd hd List.not_mem_nil
  obtain ⟨groups, hsent, hgroups, -⟩ := ikcpFlush_datagrams hupdated
  rw [hsent] at hd
  obtain ⟨g, hg, rfl⟩ := List.mem_map.mp hd
  exact ⟨g, rfl, hgroups g hg⟩

end Kcp
end UnixNetwork
