import UnixNetwork.Kcp.Receiving
import UnixNetwork.Kcp.Stream
import UnixNetwork.Transition.System

/-!
# One end of a session, whatever arrives

The functions of `ikcp.h` as the calls of a transition system: the application's, the
clock's, and `ikcp_input` with any bytes at all, since what comes in from a UDP socket
may come from anywhere.  `Sound` is what holds of the control block after any sequence
of calls.

## What keeps it

The two halves are as in `Outbound` and `Inbound`.  Nothing is asked of the segments
that arrive, and of those in `snd_buf` only that they are data of the session.  `Sized`
is about the `mtu` and `buffer`: `buffer` has room for a datagram and for each segment
that waits to be sent.  `Tuned` is about the settings and estimates: the timers, the
threshold of the congestion window and the time between two probes stay in their ranges.

`Usage` is what the application keeps to.  It asks for no receive window above a bound
and no least timer below one, both of which are its own choice.  Its calls of
`ikcp_setmtu` ask for less than 2 ^ 30 bytes, so that neither the size of `buffer` nor
the sums of lengths in `ikcp_flush` run over, and they leave a `buffer` with room for
each segment that waits.  That may be longer than a new `mtu`, and then goes out in a
datagram of its own; it is longer than `buffer`, and `ikcp_flush` writes past its end,
only when the new `mtu` is less than about a third of the old one.
-/

namespace UnixNetwork
namespace Kcp

open Serial (Window Stretch)

/-! ## Calls -/

/-- The calls of `ikcp.h`, and the three fields that programs set themselves. -/
inductive Call where
  | send (buffer : List UInt8)
  | recv (len : ℤ)
  | input (data : List UInt8)
  | flush
  | update (current : IUINT32)
  | setmtu (mtu : ℤ)
  | interval (millisec : ℤ)
  | nodelay (delay millisec resend nc : ℤ)
  | wndsize (sndwnd rcvwnd : ℤ)
  | minrto (value : ℤ)
  | fastresend (value : ℤ)
  | stream (value : ℤ)
  deriving DecidableEq, Repr

/-- What a call does: the control block, and what goes to the output callback. -/
def Call.run (kcp : Ikcpcb) : Call → Ikcpcb × List (List UInt8)
  | .send buffer => ((ikcpSend kcp buffer).1, [])
  | .recv len => ((ikcpRecv kcp len).1, [])
  | .input data => ((ikcpInput kcp data).1, [])
  | .flush => ikcpFlush kcp
  | .update current => ikcpUpdate kcp current
  | .setmtu mtu => ((ikcpSetmtu kcp mtu).1, [])
  | .interval millisec => (ikcpInterval kcp millisec, [])
  | .nodelay delay millisec resend nc => (ikcpNodelay kcp delay millisec resend nc, [])
  | .wndsize sndwnd rcvwnd => (ikcpWndsize kcp sndwnd rcvwnd, [])
  | .minrto value => ({ kcp with rxMinrto := value }, [])
  | .fastresend value => ({ kcp with fastresend := value }, [])
  | .stream value => ({ kcp with stream := value }, [])

/-- What an application keeps to. -/
structure Usage where
  /-- The largest receive window it asks for. -/
  window : ℕ
  /-- The least retransmission timer it asks for. -/
  minrto : ℤ
  window_ge : 128 ≤ window
  window_lt : window < 2 ^ 31
  minrto_le : minrto ≤ 30

/-- An application that asks for no window that a header has no room for. -/
def wireUsage : Usage where
  window := wireLimit
  minrto := -2 ^ 31
  window_ge := by decide
  window_lt := by decide
  minrto_le := by decide

/-- The calls it makes. -/
def Usage.Allows (usage : Usage) (kcp : Ikcpcb) : Call → Prop
  | .setmtu mtu =>
    mtu < 2 ^ 30 ∧ ∀ seg ∈ kcp.sndBuf ++ kcp.sndQueue,
      24 + seg.data.length ≤ (ikcpSetmtu kcp mtu).1.bufferSize.toNat
  | .wndsize sndwnd rcvwnd => sndwnd < 2 ^ 31 ∧ rcvwnd ≤ usage.window
  | .minrto value => usage.minrto ≤ value ∧ value < 2 ^ 31
  | _ => True

/-- One end of a session. -/
def endpoint (conv : IUINT32) (usage : Usage) : TransitionSystem Ikcpcb Call where
  init := fun kcp => kcp = ikcpCreate conv
  step := fun kcp call kcp' => usage.Allows kcp call ∧ kcp' = (call.run kcp).1

/-! ## Runs -/

/-- The calls that an application may make at any time. -/
def Call.free : Call → Bool
  | .setmtu _ | .wndsize _ _ | .minrto _ => false
  | _ => true

theorem Usage.allows_of_free (usage : Usage) (kcp : Ikcpcb) {call : Call} (h : call.free = true) :
    usage.Allows kcp call := by
  cases call with
  | setmtu _ | wndsize _ _ | minrto _ => cases h
  | _ => exact trivial

/-- Calls one after the other. -/
def Ikcpcb.calls (kcp : Ikcpcb) (calls : List Call) : Ikcpcb :=
  calls.foldl (fun kcp call => (call.run kcp).1) kcp

/-- They are a run. -/
theorem reachable_calls {conv : IUINT32} {usage : Usage} {kcp : Ikcpcb} {calls : List Call}
    (h : (endpoint conv usage).Reachable kcp) (hfree : ∀ call ∈ calls, call.free = true) :
    (endpoint conv usage).Reachable (kcp.calls calls) := by
  induction calls generalizing kcp with
  | nil => exact h
  | cons call calls ih =>
    have hstep := h.step ⟨usage.allows_of_free kcp (hfree call List.mem_cons_self), rfl⟩
    exact ih hstep fun call' h' => hfree call' (List.mem_cons_of_mem call h')

/-! ## Induction over a call -/

/-- **A datagram, whatever its bytes**: what every segment keeps and the end of `ikcp_input`
keeps, it keeps. -/
theorem ikcpInput_invariant {P : Ikcpcb → Prop}
    (hseg : ∀ st h data, P st.kcp → P (inputSeg st h data).kcp)
    (hend : ∀ prevUna st, P st.kcp → P (inputEnd prevUna st)) {kcp : Ikcpcb} (h : P kcp)
    (data : List UInt8) : P (ikcpInput kcp data).1 := by
  rcases Nat.lt_or_ge data.length 24 with hshort | hlong
  · rw [ikcpInput, if_pos (show data.length < overhead.toNat from hshort)]
    exact h
  have hsegs (segs : List (Header × List UInt8)) (st : InputState) (hst : P st.kcp) :
      P (inputSegs st segs).kcp := by
    induction segs generalizing st with
    | nil => exact hst
    | cons seg segs ih => exact ih _ (hseg st seg.1 seg.2 hst)
  rw [ikcpInput_eq kcp hlong]
  dsimp only
  split
  · exact hsegs _ _ h
  · exact hend _ _ (hsegs _ _ h)

/-- What `ikcp_update` does before it flushes, if it does. -/
theorem ikcpUpdate_cases (kcp : Ikcpcb) (current : IUINT32) :
    ∃ updated tsFlush, updated ≠ 0 ∧
      (ikcpUpdate kcp current =
          ikcpFlush { kcp with current := current, updated := updated, tsFlush := tsFlush } ∨
        ikcpUpdate kcp current =
          ({ kcp with current := current, updated := updated, tsFlush := tsFlush }, [])) := by
  obtain ⟨updated, tsFlush, hne, hstart⟩ : ∃ updated tsFlush, updated ≠ 0 ∧
      (if kcp.updated = 0 then
        { kcp with current := current, updated := 1, tsFlush := current }
        else { kcp with current := current }) =
      { kcp with current := current, updated := updated, tsFlush := tsFlush } := by
    split
    · exact ⟨1, current, by decide, rfl⟩
    · rename_i hupdated
      exact ⟨kcp.updated, kcp.tsFlush, hupdated, rfl⟩
  unfold ikcpUpdate
  dsimp only
  rw [hstart]
  dsimp only
  by_cases hlate : 10000 ≤ itimediff current tsFlush ∨ itimediff current tsFlush < -10000
  · rw [if_pos hlate, if_pos hlate, if_pos le_rfl]
    exact ⟨updated, _, hne, .inl rfl⟩
  · rw [if_neg hlate, if_neg hlate]
    split
    · exact ⟨updated, _, hne, .inl rfl⟩
    · exact ⟨updated, tsFlush, hne, .inr rfl⟩

/-! ## The `mtu` and `buffer` -/

/-- The sizes that `ikcp_setmtu` sets. -/
def Ikcpcb.sizes (kcp : Ikcpcb) : IUINT32 × IUINT32 × IUINT32 := (kcp.mtu, kcp.mss, kcp.bufferSize)

/-- **`buffer` has room for a datagram, and for each segment that waits.** -/
structure Sized (kcp : Ikcpcb) : Prop where
  mtu : kcp.mtu.toNat = kcp.mss.toNat + 24
  mtu_lt : kcp.mtu.toNat < 2 ^ 30
  mss_pos : 0 < kcp.mss.toNat
  buffer : kcp.bufferSize.toNat = 3 * (kcp.mtu.toNat + 24)
  fits : ∀ seg ∈ kcp.sndBuf ++ kcp.sndQueue, 24 + seg.data.length ≤ kcp.bufferSize.toNat
  short : ∀ seg ∈ kcp.sndBuf ++ kcp.sndQueue, 24 + seg.data.length < 2 ^ 30

variable {conv : IUINT32} {usage : Usage} {kcp kcp' : Ikcpcb}

/-- The data that waits is some of what waited, or fits in a datagram. -/
theorem Sized.of_data (h : Sized kcp) (hsizes : kcp'.sizes = kcp.sizes)
    (hdata : ∀ seg ∈ kcp'.sndBuf ++ kcp'.sndQueue,
      (∃ old ∈ kcp.sndBuf ++ kcp.sndQueue, seg.data = old.data) ∨
        seg.data.length ≤ kcp.mss.toNat) : Sized kcp' := by
  simp only [Ikcpcb.sizes, Prod.mk.injEq] at hsizes
  obtain ⟨hmtu, hmss, hbuffer⟩ := hsizes
  have hmtu' := h.mtu
  have hlt := h.mtu_lt
  have hroom := h.buffer
  have hseg : ∀ seg ∈ kcp'.sndBuf ++ kcp'.sndQueue,
      24 + seg.data.length ≤ kcp.bufferSize.toNat ∧ 24 + seg.data.length < 2 ^ 30 := by
    intro seg hseg
    rcases hdata seg hseg with ⟨old, hold, heq⟩ | hle
    · rw [heq]
      exact ⟨h.fits old hold, h.short old hold⟩
    · omega
  exact
    { mtu := by rw [hmtu, hmss, hmtu']
      mtu_lt := by rw [hmtu]; exact hlt
      mss_pos := by rw [hmss]; exact h.mss_pos
      buffer := by rw [hbuffer, hmtu, hroom]
      fits := by
        rw [hbuffer]
        exact fun seg h => (hseg seg h).1
      short := fun seg h => (hseg seg h).2 }

/-- Taking segments out of `snd_buf`. -/
theorem Sized.sublist (h : Sized kcp) (hsizes : kcp'.sizes = kcp.sizes)
    (hbuf : List.Sublist kcp'.sndBuf kcp.sndBuf) (hqueue : kcp'.sndQueue = kcp.sndQueue) :
    Sized kcp' := by
  refine h.of_data hsizes fun seg hseg => .inl ⟨seg, ?_, rfl⟩
  rw [hqueue] at hseg
  exact (hbuf.append_right kcp.sndQueue).subset hseg

/-- Sending queues fragments that fit, and fills up a segment as far as it goes. -/
theorem Sized.send (h : Sized kcp) (buffer : List UInt8) : Sized (ikcpSend kcp buffer).1 := by
  have hqueue (kcp : Ikcpcb) (buffer : List UInt8) (h : Sized kcp) :
      Sized (queueFragments kcp buffer).1 := by
    rcases queueFragments_spec kcp buffer h.mss_pos with heq | ⟨count, -, -, -, heq⟩ <;> rw [heq]
    · exact h
    · refine h.of_data rfl ?_
      intro seg hseg
      rw [← List.append_assoc] at hseg
      rcases List.mem_append.mp hseg with hold | hnew
      · exact .inl ⟨seg, hold, rfl⟩
      · exact .inr (length_data_fragments hnew)
  unfold ikcpSend
  split
  swap
  · exact hqueue kcp buffer h
  rcases topUp_spec kcp buffer with heq | ⟨init, old, taken, rest, hinit, -, hlen, heq⟩ <;>
    rw [heq] <;> dsimp only
  · split
    · exact h
    · exact hqueue kcp buffer h
  · have hfilled : Sized { kcp with sndQueue := init ++ [{ data := old.data ++ taken }] } := by
      refine h.of_data rfl ?_
      intro seg hseg
      rw [← List.append_assoc] at hseg
      rcases List.mem_append.mp hseg with hseg | hseg
      · refine .inl ⟨seg, ?_, rfl⟩
        rw [hinit, ← List.append_assoc]
        exact List.mem_append_left _ hseg
      · obtain rfl := List.mem_singleton.mp hseg
        exact .inr hlen
    split
    · exact hfilled
    · exact hqueue { kcp with sndQueue := init ++ [{ data := old.data ++ taken }] } rest hfilled

/-- What waits after a flush waited before it, with the same data. -/
theorem exists_waiting_of_flush (hupdated : kcp.updated ≠ 0) {seg : Ikcpseg}
    (hseg : seg ∈ (ikcpFlush kcp).1.sndBuf ++ (ikcpFlush kcp).1.sndQueue) :
    ∃ old ∈ kcp.sndBuf ++ kcp.sndQueue, seg.data = old.data := by
  obtain ⟨n, _, _, _, _, _, _, _, _, -, -, -, -, -, heq⟩ := ikcpFlush_spec hupdated
  rw [heq] at hseg
  rcases List.mem_append.mp hseg with hbuf | hqueue
  · obtain ⟨a, ha, rfl⟩ := List.mem_map.mp hbuf
    obtain ⟨-, -, -, -, hdata⟩ := due_frame kcp (ikcpWndUnused kcp) (resentOf kcp)
      (rtominOf kcp) a
    rcases List.mem_append.mp ha with hold | hnew
    · exact ⟨a, List.mem_append_left _ hold, hdata⟩
    · obtain ⟨k, hk⟩ := List.mem_iff_getElem?.mp hnew
      rw [List.getElem?_mapIdx] at hk
      obtain ⟨q, hq, rfl⟩ := Option.map_eq_some_iff.mp hk
      exact ⟨q, List.mem_append_right _ (List.mem_of_mem_take (List.mem_of_getElem? hq)), hdata⟩
  · exact ⟨seg, List.mem_append_right _ (List.mem_of_mem_drop hqueue), rfl⟩

theorem Sized.flush (h : Sized kcp) (hupdated : kcp.updated ≠ 0) : Sized (ikcpFlush kcp).1 := by
  refine h.of_data ?_ fun seg hseg => .inl (exists_waiting_of_flush hupdated hseg)
  obtain ⟨_, _, _, _, _, _, _, _, _, -, -, -, -, -, heq⟩ := ikcpFlush_spec hupdated
  rw [heq]
  rfl

/-- A datagram is no longer than the `mtu`, or it is a segment that waited and is too long for
that. -/
def Measured (kcp : Ikcpcb) (d : List UInt8) : Prop :=
  d.length ≤ kcp.mtu.toNat ∨
    ∃ seg : Ikcpseg, d = seg.wire ∧ kcp.mss.toNat < seg.data.length ∧
      ∃ old ∈ kcp.sndBuf ++ kcp.sndQueue, seg.data = old.data

/-- **The datagrams of a flush have room in `buffer`.** -/
theorem Sized.datagram (h : Sized kcp) {segs : List Ikcpseg} (hfits : Fits kcp.mtu segs)
    (hsegs : ∀ seg ∈ segs, FlushSeg kcp seg) (hupdated : kcp.updated ≠ 0) :
    (wires segs).length ≤ kcp.bufferSize.toNat ∧ (wires segs).length < 2 ^ 30 ∧
      Measured kcp (wires segs) := by
  have hmtu := h.mtu
  have hlt := h.mtu_lt
  have hbuffer := h.buffer
  have hmeasured : Measured kcp (wires segs) := by
    rcases hfits.2 with hle | hone
    · rw [BitVec.toInt_eq_toNat_of_lt (by omega)] at hle
      exact .inl (Int.ofNat_le.mp hle)
    obtain ⟨seg, rfl⟩ := List.length_eq_one_iff.mp hone
    have hwire : wires [seg] = seg.wire := List.append_nil _
    have hlength : (wires [seg]).length = 24 + seg.data.length := by
      rw [hwire, Ikcpseg.length_wire]
    -- only data can be too long
    rcases Nat.lt_or_ge kcp.mss.toNat seg.data.length with hlong | hle
    swap
    · exact .inl (by omega)
    cases hsegs seg List.mem_cons_self with
    | ack hack =>
      obtain ⟨ack, -, rfl⟩ := List.mem_map.mp hack
      exact absurd hlong (Nat.not_lt_zero _)
    | probe hprobe =>
      rw [hprobe.data] at hlong
      exact absurd hlong (Nat.not_lt_zero _)
    | data hmem _ _ =>
      exact .inr ⟨seg, hwire, hlong,
        exists_waiting_of_flush hupdated (List.mem_append_left _ hmem)⟩
  refine ⟨?_, ?_, hmeasured⟩
  · rcases hmeasured with hle | ⟨seg, hwire, -, old, hold, hdata⟩
    · omega
    · have := h.fits old hold
      rw [hwire, Ikcpseg.length_wire, hdata]
      omega
  · rcases hmeasured with hle | ⟨seg, hwire, -, old, hold, hdata⟩
    · omega
    · have := h.short old hold
      rw [hwire, Ikcpseg.length_wire, hdata]
      omega

/-! ## Settings and estimates -/

/-- **The settings and estimates are in their ranges.** -/
structure Tuned (usage : Usage) (kcp : Ikcpcb) : Prop where
  rto_ge : usage.minrto ≤ kcp.rxRto
  rto_le : kcp.rxRto ≤ 60000
  minrto_ge : usage.minrto ≤ kcp.rxMinrto
  minrto_lt : kcp.rxMinrto < 2 ^ 31
  interval_ge : 10 ≤ kcp.interval.toNat
  interval_le : kcp.interval.toNat ≤ 5000
  ssthresh : threshMin ≤ kcp.ssthresh
  probeWait : ProbeTime kcp.probeWait
  sndWnd : kcp.sndWnd ≠ 0

/-- What `ikcp_update_ack` computes is in the range, whatever it measured. -/
theorem rto_mem (usage : Usage) {minrto : ℤ} (hge : usage.minrto ≤ minrto) (hlt : minrto < 2 ^ 31)
    (middle : IUINT32) :
    usage.minrto ≤ (ibound (BitVec.ofInt 32 minrto) middle rtoMax).toInt ∧
      (ibound (BitVec.ofInt 32 minrto) middle rtoMax).toInt ≤ 60000 := by
  have hmax : rtoMax.toNat = 60000 := rfl
  have hupper := imin_le_right (imax (BitVec.ofInt 32 minrto) middle) rtoMax
  rw [BitVec.le_def] at hupper
  have hleast := usage.minrto_le
  have hint : (ibound (BitVec.ofInt 32 minrto) middle rtoMax).toInt =
      (ibound (BitVec.ofInt 32 minrto) middle rtoMax).toNat :=
    BitVec.toInt_eq_toNat_of_lt (by unfold ibound; omega)
  rw [hint]
  refine ⟨?_, by unfold ibound; omega⟩
  by_cases hlower : BitVec.ofInt 32 minrto ≤ rtoMax
  · have hle : BitVec.ofInt 32 minrto ≤ ibound (BitVec.ofInt 32 minrto) middle rtoMax :=
      (ibound_mem hlower).1
    rw [BitVec.le_def] at hle hlower
    rw [BitVec.toNat_ofInt] at hle hlower
    omega
  · have hmiddle : BitVec.ofInt 32 minrto ≤ imax (BitVec.ofInt 32 minrto) middle := by
      unfold imax
      split <;> bv_omega
    rw [ibound, imin, if_neg (by bv_omega)]
    omega

theorem Tuned.flush (h : Tuned usage kcp) (hupdated : kcp.updated ≠ 0) :
    Tuned usage (ikcpFlush kcp).1 := by
  obtain ⟨_, _, _, _, _, _, _, _, _, -, -, -, -, htuned, heq⟩ := ikcpFlush_spec hupdated
  rw [heq]
  refine { h with ssthresh := ?_, probeWait := (htuned.wait h.probeWait).1 }
  rcases htuned.ssthresh with hsame | hge
  · rw [hsame]
    exact h.ssthresh
  · exact hge

theorem toNat_clampInterval (interval : ℤ) :
    10 ≤ (BitVec.ofInt 32 (clampInterval interval)).toNat ∧
      (BitVec.ofInt 32 (clampInterval interval)).toNat ≤ 5000 := by
  have hge : 10 ≤ clampInterval interval := by
    unfold clampInterval
    split_ifs <;> omega
  have hle : clampInterval interval ≤ 5000 := by
    unfold clampInterval
    split_ifs <;> omega
  rw [BitVec.toNat_ofInt]
  omega

theorem Tuned.interval (h : Tuned usage kcp) (interval : ℤ) :
    Tuned usage (ikcpInterval kcp interval) :=
  { h with
    interval_ge := (toNat_clampInterval interval).1
    interval_le := (toNat_clampInterval interval).2 }

theorem Tuned.nodelay (h : Tuned usage kcp) (nodelay interval resend nc : ℤ) :
    Tuned usage (ikcpNodelay kcp nodelay interval resend nc) := by
  have hmode (kcp : Ikcpcb) (h : Tuned usage kcp) :
      Tuned usage (if 0 ≤ nodelay then
        { kcp with
          nodelay := BitVec.ofInt 32 nodelay
          rxMinrto := if nodelay ≠ 0 then rtoNdl.toInt else rtoMin.toInt } else kcp) := by
    have hleast := usage.minrto_le
    have hndl : rtoNdl.toInt = 30 := rfl
    have hmin : rtoMin.toInt = 100 := rfl
    split
    · refine { h with minrto_ge := ?_, minrto_lt := ?_ } <;> dsimp only <;> split <;> omega
    · exact h
  have hinterval (kcp : Ikcpcb) (h : Tuned usage kcp) :
      Tuned usage (if 0 ≤ interval then ikcpInterval kcp interval else kcp) := by
    split
    · exact h.interval interval
    · exact h
  have hresend (kcp : Ikcpcb) (h : Tuned usage kcp) :
      Tuned usage (if 0 ≤ resend then { kcp with fastresend := resend } else kcp) := by
    split
    · exact { h with }
    · exact h
  have hrest := hresend _ (hinterval _ (hmode kcp h))
  unfold ikcpNodelay
  dsimp only
  split
  · exact { hrest with }
  · exact hrest

/-! ## The invariant -/

/-- **What holds of an end of a session**, whatever it has been called with. -/
structure Sound (conv : IUINT32) (usage : Usage) (kcp : Ikcpcb) : Prop where
  session : kcp.conv = conv
  outbound : ∃ una nxt,
    Outbound (fun _ seg => seg.cmd = cmdPush ∧ seg.conv = conv) una nxt kcp.outgoing
  inbound : ∃ r, Inbound (fun _ _ => True) usage.window r kcp.incoming
  sized : Sized kcp
  tuned : Tuned usage kcp

theorem sound_ikcpCreate (conv : IUINT32) (usage : Usage) : Sound conv usage (ikcpCreate conv) where
  session := rfl
  outbound := ⟨0, 0, outbound_ikcpCreate _ conv⟩
  inbound := ⟨0, inbound_ikcpCreate _ conv usage.window_ge usage.window_lt⟩
  sized :=
    { mtu := rfl
      mtu_lt := show mtuDef.toNat < 2 ^ 30 by decide
      mss_pos := show 0 < (mtuDef - overhead).toNat by decide
      buffer := rfl
      fits := fun seg hseg => absurd hseg List.not_mem_nil
      short := fun seg hseg => absurd hseg List.not_mem_nil }
  tuned := by
    have hleast := usage.minrto_le
    have hdef : rtoDef.toInt = 200 := rfl
    have hmin : rtoMin.toInt = 100 := rfl
    refine ⟨?_, ?_, ?_, ?_, ?_, ?_, BitVec.le_refl _, .inl rfl, show wndSnd ≠ 0 by decide⟩
    · exact show usage.minrto ≤ rtoDef.toInt by omega
    · exact show rtoDef.toInt ≤ 60000 by omega
    · exact show usage.minrto ≤ rtoMin.toInt by omega
    · exact show rtoMin.toInt < 2 ^ 31 by omega
    · exact show 10 ≤ intervalDef.toNat by decide
    · exact show intervalDef.toNat ≤ 5000 by decide

theorem Sound.send (h : Sound conv usage kcp) (buffer : List UInt8) :
    Sound conv usage (ikcpSend kcp buffer).1 := by
  obtain ⟨queue, n, hframe, -, hcount⟩ := ikcpSend_frame kcp buffer h.sized.mss_pos
  obtain ⟨una, nxt, hout⟩ := h.outbound
  have hsized := h.sized.send buffer
  rw [hframe] at hsized ⊢
  exact
    { session := h.session
      outbound := ⟨una, nxt, { hout with nsndQue := hcount hout.nsndQue }⟩
      inbound := h.inbound
      sized := hsized
      tuned := { h.tuned with } }

theorem Sound.recv (h : Sound conv usage kcp) (len : ℤ) : Sound conv usage (ikcpRecv kcp len).1 := by
  obtain ⟨r, hinb⟩ := h.inbound
  have hinb' : ∃ r', Inbound (fun _ _ => True) usage.window r' (ikcpRecv kcp len).1.incoming := by
    rcases hinb.recv len with ⟨code, heq⟩ | ⟨_, moved, -, -, -, -, hadv, -⟩
    · rw [heq]
      exact ⟨r, hinb⟩
    · exact ⟨_, hadv.inbound⟩
  obtain ⟨_, _, _, _, _, _, hframe, -⟩ := ikcpRecv_frame kcp len
  rw [hframe] at hinb' ⊢
  exact
    { session := h.session
      outbound := h.outbound
      inbound := hinb'
      sized := { h.sized with }
      tuned := { h.tuned with } }

/-- **A segment that arrives**, whatever it is. -/
theorem Sound.inputSeg {st : InputState} (hst : Sound conv usage st.kcp) (h : Header)
    (data : List UInt8) : Sound conv usage (inputSeg st h data).kcp := by
  obtain ⟨una, nxt, hout⟩ := hst.outbound
  obtain ⟨r, hinb⟩ := hst.inbound
  obtain ⟨una', -, -, hout', hqueue, hsub, -⟩ := hout.inputSeg h data
  obtain ⟨_, _, _, harr, -⟩ := arrival_spec st.kcp h
  refine ⟨(conv_inputSeg st h data).trans hst.session, ⟨una', nxt, hout'⟩, ?_, ?_, ?_⟩
  · rcases inputSeg_cases st h data with ⟨-, heq⟩ | ⟨-, heq⟩ | ⟨-, -, _, heq⟩ <;> rw [heq]
    · obtain ⟨_, _, _, _, _, _, hack, -⟩ := inputAck_spec { st with kcp := arrival st.kcp h } h.sn h.ts
      rw [hack, harr]
      exact ⟨r, hinb⟩
    · obtain ⟨moved, hadv⟩ : ∃ moved, Advance (fun _ _ => True) usage.window r
          (arrival st.kcp h).incoming (inputPush (arrival st.kcp h) h data).incoming moved := by
        have harrived : Inbound (fun _ _ => True) usage.window r (arrival st.kcp h).incoming := by
          rw [harr]
          exact hinb
        unfold inputPush
        split
        swap
        · exact ⟨[], Advance.refl harrived⟩
        dsimp only
        split
        swap
        · exact ⟨[], Advance.refl harrived⟩
        have hacked : Inbound (fun _ _ => True) usage.window r
            (ikcpAckPush (arrival st.kcp h) h.sn h.ts).incoming := harrived
        obtain ⟨moved, hadv, -⟩ := hacked.parseData (newSegment h data)
          fun _ _ _ _ => trivial
        exact ⟨moved, hadv⟩
      exact ⟨_, hadv.inbound⟩
    · rw [harr]
      exact ⟨r, hinb⟩
  · -- no segment is any longer
    rcases inputSeg_cases st h data with ⟨-, heq⟩ | ⟨-, heq⟩ | ⟨-, -, _, heq⟩
    · obtain ⟨_, _, _, _, _, _, hack, -⟩ := inputAck_spec { st with kcp := arrival st.kcp h } h.sn h.ts
      exact hst.sized.sublist (by rw [heq, hack, harr]; rfl) hsub hqueue
    · obtain ⟨_, _, _, _, _, hpush⟩ := inputPush_frame (arrival st.kcp h) h data
      exact hst.sized.sublist (by rw [heq, hpush, harr]; rfl) hsub hqueue
    · exact hst.sized.sublist (by rw [heq, harr]; rfl) hsub hqueue
  · rcases inputSeg_cases st h data with ⟨-, heq⟩ | ⟨-, heq⟩ | ⟨-, -, _, heq⟩ <;> rw [heq]
    · obtain ⟨_, _, rto, _, _, _, hack, hrto, -⟩ :=
        inputAck_spec { st with kcp := arrival st.kcp h } h.sn h.ts
      rw [hack]
      rw [harr] at hrto ⊢
      have hmem : usage.minrto ≤ rto ∧ rto ≤ 60000 := by
        rcases hrto with hsame | ⟨middle, hbound⟩
        · rw [hsame]
          exact ⟨hst.tuned.rto_ge, hst.tuned.rto_le⟩
        · rw [hbound]
          exact rto_mem usage hst.tuned.minrto_ge hst.tuned.minrto_lt middle
      exact { hst.tuned with rto_ge := hmem.1, rto_le := hmem.2 }
    · obtain ⟨_, _, _, _, _, hpush⟩ := inputPush_frame (arrival st.kcp h) h data
      rw [hpush, harr]
      exact { hst.tuned with }
    · rw [harr]
      exact { hst.tuned with }

theorem Sound.inputEnd {st : InputState} (hst : Sound conv usage st.kcp) (prevUna : IUINT32) :
    Sound conv usage (inputEnd prevUna st) := by
  obtain ⟨una, nxt, hout⟩ := hst.outbound
  have hout' := hout.inputEnd prevUna fun _ _ _ => id
  obtain ⟨buf, cwnd, incr, heq, hbuf⟩ := inputEnd_spec prevUna st
  rw [heq] at hout' ⊢
  refine ⟨hst.session, ⟨una, nxt, hout'⟩, hst.inbound, ?_, { hst.tuned with }⟩
  refine hst.sized.of_data rfl fun seg hseg => .inl ?_
  rcases List.mem_append.mp hseg with hseg | hseg
  · obtain ⟨k, hk, rfl⟩ := List.mem_iff_getElem.mp hseg
    obtain ⟨fastack, hskip⟩ := List.Forall₂.get hbuf (by rw [hbuf.length_eq]; exact hk) hk
    refine ⟨st.kcp.sndBuf.get ⟨k, by rw [hbuf.length_eq]; exact hk⟩,
      List.mem_append_left _ (List.getElem_mem _), ?_⟩
    have hdata := congrArg Ikcpseg.data hskip
    exact hdata
  · exact ⟨seg, List.mem_append_right _ hseg, rfl⟩

/-- **A flush.** -/
theorem Sound.flush (h : Sound conv usage kcp) : Sound conv usage (ikcpFlush kcp).1 := by
  by_cases hupdated : kcp.updated = 0
  · rw [ikcpFlush, if_pos hupdated]
    exact h
  obtain ⟨una, nxt, hout⟩ := h.outbound
  obtain ⟨n, -, -, hout', -⟩ := hout.flush hupdated (by
      intro k seg hk
      rw [List.getElem?_mapIdx] at hk
      obtain ⟨q, -, rfl⟩ := Option.map_eq_some_iff.mp hk
      exact ⟨rfl, h.session⟩) (by
      intro i seg hP
      obtain ⟨-, hconv, hcmd, -, -⟩ := due_frame kcp (ikcpWndUnused kcp) (resentOf kcp)
        (rtominOf kcp) seg
      exact ⟨hcmd.trans hP.1, hconv.trans hP.2⟩)
  obtain ⟨hconv, -, -, hinc⟩ := flush_settings kcp
  refine ⟨hconv.trans h.session, ⟨una, nxt + n, hout'⟩, ?_, h.sized.flush hupdated,
    h.tuned.flush hupdated⟩
  rw [hinc]
  exact h.inbound

/-- The clock. -/
theorem Sound.clock (h : Sound conv usage kcp) (current updated tsFlush : IUINT32) :
    Sound conv usage { kcp with current := current, updated := updated, tsFlush := tsFlush } where
  session := h.session
  outbound := h.outbound
  inbound := h.inbound
  sized := { h.sized with }
  tuned := { h.tuned with }

theorem Sound.update (h : Sound conv usage kcp) (current : IUINT32) :
    Sound conv usage (ikcpUpdate kcp current).1 := by
  obtain ⟨updated, tsFlush, -, hcase⟩ := ikcpUpdate_cases kcp current
  have hclock := h.clock current updated tsFlush
  rcases hcase with heq | heq <;> rw [heq]
  · exact hclock.flush
  · exact hclock

/-- The `mtu` may be anything for which `buffer` has room for what waits. -/
theorem Sound.setmtu (h : Sound conv usage kcp) {mtu : ℤ}
    (hallows : usage.Allows kcp (.setmtu mtu)) : Sound conv usage (ikcpSetmtu kcp mtu).1 := by
  obtain ⟨hlt, hfits⟩ := hallows
  unfold ikcpSetmtu at hfits ⊢
  split
  · exact h
  rename_i hge
  rw [if_neg hge] at hfits
  rw [not_or, not_lt] at hge
  have hover : overhead.toNat = 24 := rfl
  have hmtu : (BitVec.ofInt 32 mtu).toNat = mtu.toNat := by
    rw [BitVec.toNat_ofInt]
    omega
  have hmss : (BitVec.ofInt 32 mtu - overhead).toNat + 24 = mtu.toNat := by
    rw [BitVec.toNat_sub, hmtu, hover]
    omega
  have hbuffer : ((BitVec.ofInt 32 mtu + overhead) * 3).toNat = 3 * (mtu.toNat + 24) := by
    rw [BitVec.toNat_mul, BitVec.toNat_add, hmtu, hover, show (3 : IUINT32).toNat = 3 from rfl]
    omega
  exact
    { session := h.session
      outbound := h.outbound
      inbound := h.inbound
      sized :=
        { mtu := hmtu.trans hmss.symm
          mtu_lt := show (BitVec.ofInt 32 mtu).toNat < 2 ^ 30 by omega
          mss_pos := show 0 < (BitVec.ofInt 32 mtu - overhead).toNat by omega
          buffer := hbuffer.trans (by rw [← hmtu])
          fits := hfits
          short := h.sized.short }
      tuned := { h.tuned with } }

theorem Sound.wndsize (h : Sound conv usage kcp) {sndwnd rcvwnd : ℤ}
    (hallows : usage.Allows kcp (.wndsize sndwnd rcvwnd)) :
    Sound conv usage (ikcpWndsize kcp sndwnd rcvwnd) := by
  obtain ⟨hsndlt, hle⟩ := hallows
  obtain ⟨r, hinb⟩ := h.inbound
  have hsnd (kcp : Ikcpcb) (h : Sound conv usage kcp) :
      Sound conv usage
        (if 0 < rcvwnd then { kcp with rcvWnd := imax (BitVec.ofInt 32 rcvwnd) wndRcv } else kcp) := by
    split
    swap
    · exact h
    rename_i hpos
    have hge := usage.window_ge
    have hlt := usage.window_lt
    have hwnd : 128 ≤ (imax (BitVec.ofInt 32 rcvwnd) wndRcv).toNat ∧
        (imax (BitVec.ofInt 32 rcvwnd) wndRcv).toNat ≤ usage.window := by
      have hrcv : wndRcv.toNat = 128 := rfl
      have hasked : (BitVec.ofInt 32 rcvwnd).toNat = rcvwnd.toNat := by
        rw [BitVec.toNat_ofInt]
        omega
      unfold imax
      split
      · rename_i hmax
        rw [BitVec.le_def] at hmax
        omega
      · omega
    obtain ⟨r, hinb⟩ := h.inbound
    exact
      { session := h.session
        outbound := h.outbound
        inbound := ⟨r, { hinb with least := hwnd.1, most := hwnd.2 }⟩
        sized := { h.sized with }
        tuned := { h.tuned with } }
  unfold ikcpWndsize
  refine hsnd _ ?_
  split
  · rename_i hpos
    refine
      { session := h.session
        outbound := h.outbound
        inbound := h.inbound
        sized := { h.sized with }
        tuned := { h.tuned with sndWnd := ?_ } }
    intro hzero
    have htoNat : (BitVec.ofInt 32 sndwnd).toNat = 0 := congrArg BitVec.toNat hzero
    rw [BitVec.toNat_ofInt] at htoNat
    omega
  · exact h

/-- Settings that write no more than fields of `Tuned`. -/
theorem Sound.retune (h : Sound conv usage kcp) (htuned : Tuned usage kcp')
    (hsession : kcp'.conv = kcp.conv) (hout : kcp'.outgoing = kcp.outgoing)
    (hinc : kcp'.incoming = kcp.incoming) (hsizes : kcp'.sizes = kcp.sizes) :
    Sound conv usage kcp' where
  session := hsession.trans h.session
  outbound := by
    rw [hout]
    exact h.outbound
  inbound := by
    rw [hinc]
    exact h.inbound
  sized := h.sized.sublist hsizes
    (by rw [show kcp'.sndBuf = kcp.sndBuf from congrArg Outgoing.sndBuf hout])
    (congrArg Outgoing.sndQueue hout)
  tuned := htuned

theorem ikcpNodelay_frame (kcp : Ikcpcb) (nodelay interval resend nc : ℤ) :
    ∃ nodelay' rxMinrto interval' fastresend nocwnd, ikcpNodelay kcp nodelay interval resend nc =
      { kcp with
        nodelay := nodelay', rxMinrto := rxMinrto, interval := interval', fastresend := fastresend
        nocwnd := nocwnd } := by
  unfold ikcpNodelay ikcpInterval
  dsimp only
  split_ifs <;> exact ⟨_, _, _, _, _, rfl⟩

/-- **Every call keeps the invariant.** -/
theorem Sound.run (h : Sound conv usage kcp) {call : Call} (hallows : usage.Allows kcp call) :
    Sound conv usage (call.run kcp).1 := by
  cases call with
  | send buffer => exact h.send buffer
  | recv len => exact h.recv len
  | input data =>
    exact ikcpInput_invariant (fun _ hdr data hst => hst.inputSeg hdr data)
      (fun prevUna _ hst => hst.inputEnd prevUna) h data
  | flush => exact h.flush
  | update current => exact h.update current
  | setmtu mtu => exact h.setmtu hallows
  | interval millisec => exact h.retune (h.tuned.interval millisec) rfl rfl rfl rfl
  | nodelay delay millisec resend nc =>
    have htuned := h.tuned.nodelay delay millisec resend nc
    obtain ⟨_, _, _, _, _, hframe⟩ := ikcpNodelay_frame kcp delay millisec resend nc
    show Sound conv usage (ikcpNodelay kcp delay millisec resend nc)
    rw [hframe] at htuned ⊢
    exact h.retune htuned rfl rfl rfl rfl
  | wndsize sndwnd rcvwnd => exact h.wndsize hallows
  | minrto value =>
    have htuned : Tuned usage { kcp with rxMinrto := value } :=
      { h.tuned with minrto_ge := hallows.1, minrto_lt := hallows.2 }
    exact h.retune htuned rfl rfl rfl rfl
  | fastresend value => exact h.retune { h.tuned with } rfl rfl rfl rfl
  | stream value => exact h.retune { h.tuned with } rfl rfl rfl rfl

theorem sound_of_reachable (h : (endpoint conv usage).Reachable kcp) : Sound conv usage kcp := by
  refine h.invariant ?_ ?_
  · rintro kcp rfl
    exact sound_ikcpCreate conv usage
  · rintro kcp call kcp' hsound ⟨hallows, rfl⟩
    exact hsound.run hallows

/-! ## What follows -/

/-- A datagram with one segment of the session 7. -/
def datagram (cmd sn : IUINT32) (data : List UInt8) : List UInt8 :=
  Ikcpseg.wire { conv := 7, cmd := cmd, sn := sn, data := data }

/-- An end in the middle of a conversation: of the messages it sends, the first three have been
numbered and the fourth has not; of those that have arrived, the first is in order and two
are ahead of their turn. -/
def busy : Ikcpcb :=
  (ikcpCreate 7).calls [.nodelay (-1) (-1) (-1) 1, .send [1], .send [2], .send [3], .update 0,
    .send [4], .input (datagram cmdPush 0 [10]), .input (datagram cmdPush 3 [13]),
    .input (datagram cmdPush 2 [12])]

theorem reachable_busy (usage : Usage) : (endpoint 7 usage).Reachable busy :=
  reachable_calls (.init rfl) (by decide)

/-- It has got an acknowledgement half a second later. -/
def timed : Ikcpcb := busy.calls [.update 500, .input (datagram cmdAck 0 [])]

theorem reachable_timed (usage : Usage) : (endpoint 7 usage).Reachable timed :=
  reachable_calls (reachable_busy usage) (by decide)

/-- **The numbers in the two buffers.**  After any calls, both are in increasing order; those in
`snd_buf` are from `snd_una` up to `snd_nxt`, which are no further apart than the header has
room to say, and those in `rcv_buf` are from `rcv_nxt` on, within the window. -/
theorem endpoint_windows (h : (endpoint conv usage).Reachable kcp) :
    (kcp.sndBuf.Pairwise fun a b => 0 < itimediff b.sn a.sn) ∧
      (∀ seg ∈ kcp.sndBuf, 0 ≤ itimediff seg.sn kcp.sndUna ∧ itimediff seg.sn kcp.sndNxt < 0) ∧
      (0 ≤ itimediff kcp.sndNxt kcp.sndUna ∧ itimediff kcp.sndNxt kcp.sndUna ≤ 65535) ∧
      (kcp.rcvBuf.Pairwise fun a b => 0 < itimediff b.sn a.sn) ∧
      ∀ seg ∈ kcp.rcvBuf,
        0 ≤ itimediff seg.sn kcp.rcvNxt ∧ itimediff seg.sn kcp.rcvNxt < usage.window := by
  obtain ⟨-, ⟨una, nxt, hout⟩, ⟨r, hinb⟩, -, -⟩ := sound_of_reachable h
  have hsndUna : kcp.sndUna = BitVec.ofNat 32 una := hout.sndUna
  have hsndNxt : kcp.sndNxt = BitVec.ofNat 32 nxt := hout.sndNxt
  have hrcvNxt : kcp.rcvNxt = BitVec.ofNat 32 r := hinb.rcvNxt
  have hle := hout.le
  have hflight := hout.flight
  have hshort := hinb.short
  have hdiff {i j : ℕ} (hnear : Serial.Near 32 i j) :
      itimediff (BitVec.ofNat 32 i) (BitVec.ofNat 32 j) = (i : ℤ) - j := Serial.diff_ofNat hnear
  refine ⟨hout.window.sorted, ?_, ?_, hinb.window.sorted, ?_⟩
  · intro seg hseg
    obtain ⟨i, hi₁, hi₂, hkey, -⟩ := hout.window.index seg hseg
    rw [hkey, hsndUna, hsndNxt, hdiff (by constructor <;> omega), hdiff (by constructor <;> omega)]
    omega
  · rw [hsndUna, hsndNxt, hdiff (by constructor <;> omega)]
    omega
  · intro seg hseg
    obtain ⟨i, hi₁, hi₂, hkey, -⟩ := hinb.window.index seg hseg
    rw [hkey, hrcvNxt, hdiff (by constructor <;> omega)]
    omega

theorem endpoint_windows_busy : busy.sndBuf.map (·.sn) = [0, 1, 2] ∧
    busy.rcvBuf.map (·.sn) = [2, 3] ∧ busy.rcvNxt = 1 ∧
    (busy.sndBuf.Pairwise fun a b => 0 < itimediff b.sn a.sn) ∧
    (busy.rcvBuf.Pairwise fun a b => 0 < itimediff b.sn a.sn) ∧
    ∀ seg ∈ busy.rcvBuf, 0 ≤ itimediff seg.sn busy.rcvNxt ∧ itimediff seg.sn busy.rcvNxt < 65535 :=
  have ⟨hsnd, _, _, hrcv, hwindow⟩ := endpoint_windows (reachable_busy wireUsage)
  ⟨by decide, by decide, by decide, hsnd, hrcv, hwindow⟩

/-- **What an end stores.**  After any calls, the counters are the lengths of the queues, that of
`snd_queue` as far as 32 bits go, no more than 65535 segments wait for an acknowledgement, and
what arrives fills no more than the largest receive window in each of the two receiving
queues. -/
theorem endpoint_stored (h : (endpoint conv usage).Reachable kcp) :
    (kcp.nsndQue = BitVec.ofNat 32 kcp.sndQueue.length ∧ kcp.nsndBuf.toNat = kcp.sndBuf.length ∧
        kcp.nrcvQue.toNat = kcp.rcvQueue.length ∧ kcp.nrcvBuf.toNat = kcp.rcvBuf.length) ∧
      kcp.sndBuf.length ≤ 65535 ∧ kcp.rcvBuf.length ≤ usage.window ∧
        kcp.rcvQueue.length ≤ usage.window := by
  obtain ⟨-, ⟨una, nxt, hout⟩, ⟨r, hinb⟩, -, -⟩ := sound_of_reachable h
  have hflight := hout.flight
  have hsnd : kcp.sndBuf.length ≤ nxt - una := hout.window.length_le hout.le
  have hrcv : kcp.rcvBuf.length ≤ r + usage.window - r :=
    hinb.window.length_le (Nat.le_add_right r usage.window)
  have hcount : kcp.nsndBuf.toNat = kcp.sndBuf.length := by
    rw [show kcp.nsndBuf = BitVec.ofNat 32 kcp.sndBuf.length from hout.nsndBuf]
    exact Serial.toNat_ofNat_of_lt (by omega)
  exact ⟨⟨hout.nsndQue, hcount, hinb.toNat_nrcvQue, hinb.toNat_nrcvBuf⟩, by omega, by omega,
    hinb.stored⟩

theorem endpoint_stored_busy : busy.nsndQue = 1 ∧ busy.nsndBuf.toNat = 3 ∧
    busy.nrcvQue.toNat = 1 ∧ busy.nrcvBuf.toNat = 2 ∧
    (busy.nsndQue = BitVec.ofNat 32 busy.sndQueue.length ∧ busy.nsndBuf.toNat = busy.sndBuf.length ∧
      busy.nrcvQue.toNat = busy.rcvQueue.length ∧ busy.nrcvBuf.toNat = busy.rcvBuf.length) :=
  ⟨by decide, by decide, by decide, by decide, (endpoint_stored (reachable_busy wireUsage)).1⟩

/-- The segments of a flush are accepted. -/
theorem Sound.acceptable (h : Sound conv usage kcp) {segs : List Ikcpseg}
    (hlen : (wires segs).length < 2 ^ 30) (hsegs : ∀ seg ∈ segs, FlushSeg kcp seg) :
    ∀ seg ∈ segs, Acceptable conv seg := by
  obtain ⟨una, nxt, hout⟩ := h.flush.outbound
  intro seg hseg
  -- every segment is part of the datagram, so its length is read back
  have hdata : seg.data.length < 2 ^ 31 := by
    have hwire : seg.wire.length ≤ (wires segs).length := by
      obtain ⟨pre, post, rfl⟩ := List.append_of_mem hseg
      rw [wires_append, wires_cons, List.length_append, List.length_append]
      omega
    rw [Ikcpseg.length_wire] at hwire
    omega
  cases hsegs seg hseg with
  | ack hack =>
    obtain ⟨ack, -, rfl⟩ := List.mem_map.mp hack
    exact ⟨h.session, show knownCmd (cmdAck.setWidth 8) by decide, hdata⟩
  | probe hprobe =>
    refine ⟨hprobe.conv.trans h.session, ?_, hdata⟩
    rcases hprobe.cmd with hask | htell
    · rw [hask]
      decide
    · rw [htell]
      decide
  | data hmem _ _ =>
    obtain ⟨_, _, _, _, hcmd, hconv⟩ := hout.window.index seg hmem
    refine ⟨hconv, ?_, hdata⟩
    rw [hcmd]
    decide

theorem Sound.datagram (h : Sound conv usage kcp) {d : List UInt8} (hd : d ∈ (ikcpFlush kcp).2)
    {peer : Ikcpcb} (hpeer : peer.conv = conv) :
    d ≠ [] ∧ d.length ≤ kcp.bufferSize.toNat ∧ Measured kcp d ∧ (ikcpInput peer d).2 = 0 := by
  have hupdated : kcp.updated ≠ 0 := by
    intro hzero
    rw [ikcpFlush, if_pos hzero] at hd
    exact absurd hd List.not_mem_nil
  obtain ⟨segs, rfl, hfits, hsegs⟩ := ikcpFlush_datagram hd
  obtain ⟨hroom, hshort, hmeasured⟩ := h.sized.datagram hfits hsegs hupdated
  refine ⟨fun hnil => hfits.1 (wires_eq_nil_iff.mp (congrArg List.length hnil)), hroom, hmeasured, ?_⟩
  have hok : ∀ seg ∈ segs, Acceptable peer.conv seg := by
    rw [hpeer]
    exact h.acceptable hshort hsegs
  rw [← List.append_nil (wires segs)]
  exact ikcpInput_code_wires peer hfits.1 hok (by decide)

/-- **What an end sends.**  After any calls, a datagram that the next call hands to the output
callback is not empty and has room in `buffer`, where every byte of it was written.  It is no
longer than the `mtu`, or it is one segment that was queued under a larger `mtu`.  And it is
accepted whole by any end of the same session, whatever state that is in. -/
theorem endpoint_datagrams (h : (endpoint conv usage).Reachable kcp) (call : Call) {d : List UInt8}
    (hd : d ∈ (call.run kcp).2) {peer : Ikcpcb} (hpeer : peer.conv = conv) :
    d ≠ [] ∧ d.length ≤ kcp.bufferSize.toNat ∧ Measured kcp d ∧ (ikcpInput peer d).2 = 0 := by
  have hsound := sound_of_reachable h
  cases call with
  | flush => exact hsound.datagram hd hpeer
  | update current =>
    obtain ⟨updated, tsFlush, -, hcase⟩ := ikcpUpdate_cases kcp current
    change d ∈ (ikcpUpdate kcp current).2 at hd
    rcases hcase with heq | heq <;> rw [heq] at hd
    · exact (hsound.clock current updated tsFlush).datagram hd hpeer
    · exact absurd hd List.not_mem_nil
  | _ => exact absurd hd List.not_mem_nil

/-- An end that has lowered its `mtu` to 50 while a segment of 64 bytes waits. -/
def lowered : Ikcpcb :=
  (((ikcpCreate 7).calls [.send (List.replicate 40 0)]).calls [.setmtu 50]).calls [.update 0]

theorem reachable_lowered : (endpoint 7 wireUsage).Reachable lowered :=
  have hsent : (endpoint 7 wireUsage).Reachable ((ikcpCreate 7).calls [.send (List.replicate 40 0)]) :=
    reachable_calls (.init rfl) (by decide)
  have hset : (endpoint 7 wireUsage).Reachable
      (((ikcpCreate 7).calls [.send (List.replicate 40 0)]).calls [.setmtu 50]) :=
    .step (l := .setmtu 50) hsent ⟨⟨by decide, by decide⟩, rfl⟩
  reachable_calls hset (by decide)

/-- It sends that segment in a datagram longer than the `mtu`, which has room in `buffer`. -/
theorem endpoint_datagrams_lowered : lowered.mtu = 50 ∧ lowered.bufferSize = 222 ∧
    ∃ d ∈ ((Call.update 1000).run lowered).2, d.length = 64 ∧ d.length ≤ lowered.bufferSize.toNat ∧
      (ikcpInput (ikcpCreate 7) d).2 = 0 :=
  have hsent : ∃ d ∈ ((Call.update 1000).run lowered).2, d.length = 64 := by decide
  have ⟨d, hd, hlen⟩ := hsent
  have ⟨_, hroom, _, hcode⟩ := endpoint_datagrams reachable_lowered (.update 1000) hd
    (show (ikcpCreate 7).conv = 7 from rfl)
  ⟨by decide, by decide, d, hd, hlen, hroom, hcode⟩

/-- **The timers and thresholds.**  After any calls, with any round trip times measured from what
arrived, the retransmission timer is from the least one asked for to a minute, a flush is
due every 10 to 5000 milliseconds, the threshold of the congestion window is at least 2, and
a probe of the window is due after 7 to 120 seconds or not at all. -/
theorem endpoint_tuned (h : (endpoint conv usage).Reachable kcp) :
    (usage.minrto ≤ kcp.rxRto ∧ kcp.rxRto ≤ 60000) ∧
      (10 ≤ kcp.interval.toNat ∧ kcp.interval.toNat ≤ 5000) ∧ 2 ≤ kcp.ssthresh.toNat ∧
      (kcp.probeWait = 0 ∨ 7000 ≤ kcp.probeWait.toNat ∧ kcp.probeWait.toNat ≤ 120000) := by
  have htuned := (sound_of_reachable h).tuned
  exact ⟨⟨htuned.rto_ge, htuned.rto_le⟩, ⟨htuned.interval_ge, htuned.interval_le⟩, htuned.ssthresh,
    htuned.probeWait⟩

theorem endpoint_tuned_timed : timed.rxRto = 1500 ∧ timed.rxRto ≤ 60000 ∧
    (10 ≤ timed.interval.toNat ∧ timed.interval.toNat ≤ 5000) ∧ 2 ≤ timed.ssthresh.toNat :=
  have ⟨⟨_, hrto⟩, hinterval, hthresh, _⟩ := endpoint_tuned (reachable_timed wireUsage)
  ⟨by decide, hrto, hinterval, hthresh⟩

end Kcp
end UnixNetwork
