import UnixNetwork.Kcp.Stream

/-!
# What each call keeps of a direction

`Leg` is everything that is known of one direction of a session: its `Way`, the stream
of pieces between the two applications, and the few settings these depend on.  There is
a lemma for each call at either end, so that a step of the system is two of them: the
end that makes the call sends in one direction and receives in the other.

A flag remembers whether the sender has been in stream mode: until then what is
received is whole messages.
-/

namespace UnixNetwork
namespace Kcp

open Serial (Window Stretch)
open Framing (Framed)

/-- One direction, with what the applications at its ends have sent and received. -/
structure Leg (conv : IUINT32) (snd rcv : Ikcpcb) (hist : List Ikcpseg) (una r flushed : ℕ)
    (sent received : List (List UInt8)) (streamed : Bool) : Prop where
  way : Way conv hist una r flushed snd.outgoing rcv.incoming rcv.acklist
  conv_eq : snd.conv = conv
  numbered : ∀ q ∈ hist, Plain q
  queued : ∀ q ∈ snd.sndQueue, Plain q
  mss_pos : 0 < snd.mss.toNat
  mss_lt : snd.mss.toNat < 2 ^ 31
  settled : Settled rcv.incoming
  stream : ∃ groups,
    Conveyed sent received groups (inTransit hist r rcv.rcvQueue snd.sndQueue) ∧
      (streamed = false → snd.stream = 0 ∧ received ++ groups.map bytesOf = sent)

/-- What both ends make of a segment under way, sent when `n` segments were numbered in its
direction and `m` in the other. -/
structure Said (conv : IUINT32) (hist : List Ikcpseg) (confirmed : ℕ → Prop) (n m : ℕ)
    (seg : Ikcpseg) : Prop where
  acceptable : Acceptable conv seg
  cmd : seg.cmd.toNat < 256
  frg : seg.frg.toNat < 256
  carries : Carries hist n seg
  confirms : Confirms confirmed m seg

variable {conv : IUINT32} {snd rcv : Ikcpcb} {hist : List Ikcpseg} {una r flushed : ℕ}
  {sent received : List (List UInt8)} {streamed : Bool}

/-- Nothing has been sent. -/
theorem leg_ikcpCreate (conv : IUINT32) :
    Leg conv (ikcpCreate conv) (ikcpCreate conv) [] 0 0 0 [] [] false where
  way :=
    { outbound := outbound_ikcpCreate _ conv
      inbound := inbound_ikcpCreate _ conv (by decide) (by decide)
      arrived_le := le_rfl
      flushed_le := le_rfl
      cover := fun _ hi => absurd hi (Nat.not_lt_zero _)
      acks := fun _ hack => absurd hack List.not_mem_nil }
  conv_eq := rfl
  numbered := fun _ hq => absurd hq List.not_mem_nil
  queued := fun _ hq => absurd hq List.not_mem_nil
  mss_pos := show 0 < (mtuDef - overhead).toNat by decide
  mss_lt := show (mtuDef - overhead).toNat < 2 ^ 31 by decide
  settled := fun _ _ h => absurd h.symm (List.cons_ne_nil _ _)
  stream := ⟨[], ⟨Framed.nil, fun _ hg => absurd hg List.not_mem_nil, rfl⟩, fun _ => ⟨rfl, rfl⟩⟩

/-- Changes of settings: what is queued is as it was. -/
theorem Leg.settings {snd' rcv' : Ikcpcb} {streamed' : Bool}
    (h : Leg conv snd rcv hist una r flushed sent received streamed)
    (hout : snd'.outgoing = snd.outgoing) (hconv : snd'.conv = snd.conv)
    (hmss : 0 < snd'.mss.toNat) (hmss' : snd'.mss.toNat < 2 ^ 31)
    (hstream : streamed' = false → streamed = false ∧ snd'.stream = 0)
    (hinc : rcv'.incoming = rcv.incoming) (hack : rcv'.acklist = rcv.acklist) :
    Leg conv snd' rcv' hist una r flushed sent received streamed' where
  way := by
    rw [hout, hinc, hack]
    exact h.way
  conv_eq := hconv.trans h.conv_eq
  numbered := h.numbered
  queued := by
    rw [show snd'.sndQueue = snd.sndQueue from congrArg Outgoing.sndQueue hout]
    exact h.queued
  mss_pos := hmss
  mss_lt := hmss'
  settled := by
    rw [hinc]
    exact h.settled
  stream := by
    obtain ⟨groups, hconveyed, hmessages⟩ := h.stream
    rw [show snd'.sndQueue = snd.sndQueue from congrArg Outgoing.sndQueue hout,
      show rcv'.rcvQueue = rcv.rcvQueue from congrArg Incoming.rcvQueue hinc]
    exact ⟨groups, hconveyed, fun hs => ⟨(hstream hs).2, (hmessages (hstream hs).1).2⟩⟩

/-- Changes of fields that the direction does not depend on. -/
theorem Leg.congr {snd' rcv' : Ikcpcb} (h : Leg conv snd rcv hist una r flushed sent received streamed)
    (hout : snd'.outgoing = snd.outgoing) (hconv : snd'.conv = snd.conv) (hmss : snd'.mss = snd.mss)
    (hstream : snd'.stream = snd.stream) (hinc : rcv'.incoming = rcv.incoming)
    (hack : rcv'.acklist = rcv.acklist) :
    Leg conv snd' rcv' hist una r flushed sent received streamed := by
  refine h.settings hout hconv (hmss ▸ h.mss_pos) (hmss ▸ h.mss_lt) (fun hs => ⟨hs, ?_⟩) hinc hack
  obtain ⟨_, -, hmessages⟩ := h.stream
  rw [hstream]
  exact (hmessages hs).1

/-- The flag says of the mode no more than it did. -/
theorem Leg.mode (h : Leg conv snd rcv hist una r flushed sent received streamed) :
    Leg conv snd rcv hist una r flushed sent received (streamed || decide (snd.stream ≠ 0)) := by
  obtain ⟨_, -, hmessages⟩ := h.stream
  cases streamed with
  | true => exact h
  | false =>
    rw [decide_eq_false (not_not.mpr (hmessages rfl).1)]
    exact h

/-- Another receive window. -/
theorem Leg.wndsize {rcv' : Ikcpcb} (h : Leg conv snd rcv hist una r flushed sent received streamed)
    (wnd : IUINT32) (hinc : rcv'.incoming = { rcv.incoming with rcvWnd := wnd })
    (hack : rcv'.acklist = rcv.acklist) (hleast : 128 ≤ wnd.toNat) (hmost : wnd.toNat ≤ wireLimit) :
    Leg conv snd rcv' hist una r flushed sent received streamed where
  way := by
    rw [hinc, hack]
    exact { h.way with inbound := { h.way.inbound with least := hleast, most := hmost } }
  conv_eq := h.conv_eq
  numbered := h.numbered
  queued := h.queued
  mss_pos := h.mss_pos
  mss_lt := h.mss_lt
  settled := by
    rw [hinc]
    exact h.settled
  stream := by
    rw [show rcv'.rcvQueue = rcv.rcvQueue from congrArg Incoming.rcvQueue hinc]
    exact h.stream

/-! ## The applications -/

theorem Leg.send (h : Leg conv snd rcv hist una r flushed sent received streamed)
    (buffer : List UInt8) :
    Leg conv (ikcpSend snd buffer).1 rcv hist una r flushed (sentAfter snd buffer sent) received
      streamed := by
  obtain ⟨queue, n, hframe, -, hcount⟩ := ikcpSend_frame snd buffer h.mss_pos
  obtain ⟨groups, hconveyed, hmessages⟩ := h.stream
  rw [inTransit, ← List.append_assoc] at hconveyed
  obtain ⟨groups', hconveyed', hmessages'⟩ := hconveyed.send buffer h.mss_pos
  have hplain := plain_ikcpSend buffer h.mss_pos h.mss_lt h.queued
  rw [hframe] at hconveyed' hplain ⊢
  have hnque : n = queue.length := hcount h.way.outbound.nsndQue
  exact {
    way := { h.way with outbound := { h.way.outbound with nsndQue := hnque } }
    conv_eq := h.conv_eq
    numbered := h.numbered
    queued := hplain
    mss_pos := h.mss_pos
    mss_lt := h.mss_lt
    settled := h.settled
    stream := by
      refine ⟨groups', by rwa [List.append_assoc] at hconveyed', fun hs => ?_⟩
      obtain ⟨hstream, hsent⟩ := hmessages hs
      exact ⟨hstream, hmessages' hstream hsent⟩ }

/-- What has been received after a call of `ikcp_recv`: one message more, unless it failed or
only looked. -/
def receivedAfter (kcp : Ikcpcb) (len : ℤ) (received : List (List UInt8)) : List (List UInt8) :=
  match (ikcpRecv kcp len).2 with
  | .ok message => if len < 0 then received else received ++ [message]
  | .error _ => received

/-- The first segment of `rcv_queue` announces no more than a header has room for. -/
theorem Leg.left_lt (h : Leg conv snd rcv hist una r flushed sent received streamed)
    {seg : Ikcpseg} {rest : List Ikcpseg} (hqueue : rcv.rcvQueue = seg :: rest) :
    seg.left < 128 := by
  obtain ⟨groups, hconveyed, -⟩ := h.stream
  have hframed := hconveyed.framed
  rw [inTransit, hqueue, List.map_cons, List.cons_append] at hframed
  obtain ⟨g, groups', rfl, hleft⟩ := hframed.exists_first
  have hsize := hconveyed.size _ List.mem_cons_self
  rw [List.length_cons] at hsize
  have : seg.left = g.length := hleft
  omega

/-- **A full receive queue begins with a complete message.** -/
theorem Leg.unblocked (h : Leg conv snd rcv hist una r flushed sent received streamed)
    (hfull : 128 ≤ rcv.rcvQueue.length) : 0 ≤ ikcpPeeksize rcv := by
  cases hqueue : rcv.rcvQueue with
  | nil =>
    rw [hqueue] at hfull
    exact absurd hfull (by decide)
  | cons seg rest =>
    have hleft := h.left_lt hqueue
    rw [left_lt_of_peeksize hqueue h.way.inbound.toNat_nrcvQue (by omega)]
    rw [hqueue] at hfull
    omega

/-- **Nothing is lost**: when nothing waits at the sender and the receiver has no message to take,
everything has been received. -/
theorem Leg.complete (h : Leg conv snd rcv hist una r flushed sent received streamed)
    (hbuf : snd.sndBuf = []) (hqueue : snd.sndQueue = []) (hnone : ikcpPeeksize rcv < 0) :
    received.flatten = sent.flatten ∧ (streamed = false → received = sent) := by
  have hroom : rcv.nrcvQue.toNat < 128 := by
    by_contra hfull
    rw [show rcv.nrcvQue.toNat = rcv.rcvQueue.length from h.way.inbound.toNat_nrcvQue] at hfull
    exact absurd (h.unblocked (Nat.not_lt.mp hfull)) (Int.not_le.mpr hnone)
  have harrived : hist.length ≤ r := h.way.arrived h.settled hroom fun i hi => by
    rcases h.way.cover i hi with ⟨-, seg, hseg, -⟩ | hconf
    · rw [show snd.outgoing.sndBuf = [] from hbuf] at hseg
      exact absurd hseg List.not_mem_nil
    · exact hconf.2
  obtain ⟨groups, hconveyed, hmessages⟩ := h.stream
  rw [inTransit, List.drop_of_length_le harrived, hqueue, List.append_nil, List.append_nil]
    at hconveyed
  have hframed := hconveyed.framed
  -- a message in the queue would be complete
  cases hrcv : rcv.rcvQueue with
  | cons seg rest =>
    rw [hrcv, List.map_cons] at hframed
    obtain ⟨g, groups', rfl, hleft⟩ := hframed.exists_first
    have hlen := congrArg List.length hframed.flatten
    simp only [List.flatten_cons, List.length_append, List.length_cons, List.length_map] at hlen
    have hcomplete : seg.left < (seg :: rest).length := by
      rw [List.length_cons, show seg.left = g.length from hleft]
      omega
    have hpeek := (left_lt_of_peeksize hrcv h.way.inbound.toNat_nrcvQue
      ((h.left_lt hrcv).trans (by decide))).mpr hcomplete
    exact absurd hpeek (Int.not_le.mpr hnone)
  | nil =>
    rw [hrcv, List.map_nil] at hframed
    have hgroups : groups = [] := by
      rcases groups with _ | ⟨g, groups⟩
      · rfl
      · have hg := hframed.nonempty g List.mem_cons_self
        exact absurd (List.append_eq_nil_iff.mp hframed.flatten).1 hg
    have hbytes := hconveyed.bytes
    rw [hrcv, List.map_nil, bytesOf_nil, List.append_nil] at hbytes
    refine ⟨hbytes, fun hs => ?_⟩
    have hsent := (hmessages hs).2
    rwa [hgroups, List.map_nil, List.append_nil] at hsent

theorem Leg.recv (h : Leg conv snd rcv hist una r flushed sent received streamed) (len : ℤ) :
    ∃ r', r ≤ r' ∧ Leg conv snd (ikcpRecv rcv len).1 hist una r' flushed sent
        (receivedAfter rcv len received) streamed ∧
      ∀ j, Held wireLimit r rcv.incoming j → Held wireLimit r' (ikcpRecv rcv len).1.incoming j := by
  obtain ⟨_, _, _, _, _, _, hframe, -⟩ := ikcpRecv_frame rcv len
  have hack : (ikcpRecv rcv len).1.acklist = rcv.acklist := by rw [hframe]
  unfold receivedAfter
  rcases h.way.inbound.recv len with ⟨code, heq⟩ | ⟨left, moved, hleft, hne, hpeek, hok, hadv, hset⟩
  · rw [heq]
    exact ⟨r, le_rfl, h, fun _ => id⟩
  rw [hok]
  obtain ⟨seg, rest, hqueue⟩ := List.exists_cons_of_ne_nil hne
  have hall : seg.left < (seg :: rest).length :=
    (left_lt_of_peeksize hqueue h.way.inbound.toNat_nrcvQue
      ((h.left_lt hqueue).trans (by decide))).mp hpeek
  -- the direction, without the message in `rcv_queue`
  have hpopped : Way conv hist una r flushed snd.outgoing
      { rcv.incoming with rcvQueue := left, nrcvQue := BitVec.ofNat 32 left.length } rcv.acklist :=
    { h.way with
      inbound :=
        { h.way.inbound with
          nrcvQue := rfl
          stored := by
            rw [hleft]
            exact (length_left_le rcv.rcvQueue len).trans h.way.inbound.stored } }
  refine ⟨r + moved.length, Nat.le_add_right _ _, ⟨?_, h.conv_eq, h.numbered, h.queued, h.mss_pos,
    h.mss_lt, hset, ?_⟩, hadv.held⟩
  · rw [hack]
    exact hpopped.advance hadv
  obtain ⟨groups, hconveyed, hmessages⟩ := h.stream
  have htransit := inTransit_advance hadv snd.sndQueue
  rw [show (ikcpRecv rcv len).1.incoming.rcvQueue = (ikcpRecv rcv len).1.rcvQueue from rfl] at htransit
  rw [htransit]
  show ∃ groups, Conveyed sent _ groups (inTransit hist r left snd.sndQueue) ∧ _
  dsimp only
  split
  · rename_i hlook
    rw [if_pos hlook] at hleft
    rw [hleft]
    exact ⟨groups, hconveyed, hmessages⟩
  · rename_i htake
    rw [if_neg htake] at hleft
    obtain ⟨groups', hconveyed', hgroups⟩ := Conveyed.take hconveyed hqueue hall
    rw [hleft]
    refine ⟨groups', hconveyed', fun hs => ?_⟩
    obtain ⟨hstream, hsent⟩ := hmessages hs
    refine ⟨hstream, ?_⟩
    rw [← hsent, hgroups, List.append_assoc]
    rfl

/-! ## The network -/

/-- The receiving half after a segment. -/
theorem incoming_inputSeg (st : InputState) (seg : Ikcpseg) (hcmd : seg.cmd.toNat < 256) :
    (seg.cmd = cmdPush ∧
      ∃ kcp, kcp.incoming = st.kcp.incoming ∧ kcp.acklist = st.kcp.acklist ∧
        (inputSeg st seg.header seg.data).kcp = inputPush kcp seg.header seg.data) ∨
    ((inputSeg st seg.header seg.data).kcp.incoming = st.kcp.incoming ∧
      (inputSeg st seg.header seg.data).kcp.acklist = st.kcp.acklist) := by
  have hwidth : seg.header.cmd.setWidth 32 = seg.cmd := setWidth_cmd hcmd
  obtain ⟨_, _, _, harr, -⟩ := arrival_spec st.kcp seg.header
  rcases inputSeg_cases st seg.header seg.data with ⟨-, heq⟩ | ⟨hpush, heq⟩ | ⟨-, -, _, heq⟩
  · obtain ⟨_, _, _, _, _, _, hack, -⟩ :=
      inputAck_spec { st with kcp := arrival st.kcp seg.header } seg.header.sn seg.header.ts
    rw [heq, hack, harr]
    exact .inr ⟨rfl, rfl⟩
  · refine .inl ⟨hwidth.symm.trans hpush, arrival st.kcp seg.header, ?_, ?_, by rw [heq]⟩
    · rw [harr]
      rfl
    · rw [harr]
  · rw [heq, harr]
    exact .inr ⟨rfl, rfl⟩

/-- A segment changes neither the settings nor the session, nor what waits to be numbered. -/
theorem settings_inputSeg (st : InputState) (h : Header) (data : List UInt8) :
    (inputSeg st h data).kcp.conv = st.kcp.conv ∧ (inputSeg st h data).kcp.mss = st.kcp.mss ∧
      (inputSeg st h data).kcp.stream = st.kcp.stream ∧
      (inputSeg st h data).kcp.sndQueue = st.kcp.sndQueue := by
  obtain ⟨_, _, _, harr, -⟩ := arrival_spec st.kcp h
  rcases inputSeg_cases st h data with ⟨-, heq⟩ | ⟨-, heq⟩ | ⟨-, -, _, heq⟩ <;> rw [heq]
  · obtain ⟨_, _, _, _, _, _, hack, -⟩ := inputAck_spec { st with kcp := arrival st.kcp h } h.sn h.ts
    rw [hack, harr]
    exact ⟨rfl, rfl, rfl, rfl⟩
  · obtain ⟨_, _, _, _, _, hpush⟩ := inputPush_frame (arrival st.kcp h) h data
    rw [hpush, harr]
    exact ⟨rfl, rfl, rfl, rfl⟩
  · rw [harr]
    exact ⟨rfl, rfl, rfl, rfl⟩

/-- **A segment that arrives**, in the direction that it confirms. -/
theorem Leg.confirm {st : InputState} {seg : Ikcpseg} {m : ℕ}
    (h : Leg conv st.kcp rcv hist una r flushed sent received streamed)
    (hconf : Confirms (Confirmed flushed r rcv.incoming) m seg) (hcmd : seg.cmd.toNat < 256)
    (hm : hist.length < m + lifetime) :
    ∃ una', Leg conv (inputSeg st seg.header seg.data).kcp rcv hist una' r flushed sent received
      streamed := by
  obtain ⟨una', -, hway, hqueue⟩ := h.way.confirm hconf hcmd hm
  obtain ⟨hconv, hmss, hstream, -⟩ := settings_inputSeg st seg.header seg.data
  refine ⟨una', hway, hconv.trans h.conv_eq, h.numbered, ?_, ?_, ?_, h.settled, ?_⟩
  · rw [hqueue]
    exact h.queued
  · rw [hmss]
    exact h.mss_pos
  · rw [hmss]
    exact h.mss_lt
  · rw [hqueue, hstream]
    exact h.stream

/-- **A segment that arrives**, in the direction that it comes from. -/
theorem Leg.carry {st : InputState} {seg : Ikcpseg} {n : ℕ}
    (h : Leg conv snd st.kcp hist una r flushed sent received streamed)
    (hcarries : Carries hist n seg) (hcmd : seg.cmd.toNat < 256) (hfrg : seg.frg.toNat < 256)
    (hn : hist.length < n + lifetime) :
    ∃ r', r ≤ r' ∧ Leg conv snd (inputSeg st seg.header seg.data).kcp hist una r' flushed sent
        received streamed ∧
      ∀ j, Held wireLimit r st.kcp.incoming j →
        Held wireLimit r' (inputSeg st seg.header seg.data).kcp.incoming j := by
  rcases incoming_inputSeg st seg hcmd with ⟨hpush, kcp, hinc, hack, heq⟩ | ⟨hinc, hack⟩
  · have hway := h.way
    rw [← hinc, ← hack] at hway
    obtain ⟨moved, hadv, hway'⟩ := hway.carry hcarries hpush hfrg hn
    have htransit := inTransit_advance hadv snd.sndQueue
    rw [hinc] at hadv htransit
    rw [heq]
    refine ⟨r + moved.length, Nat.le_add_right _ _, ⟨hway', h.conv_eq, h.numbered, h.queued,
      h.mss_pos, h.mss_lt, hadv.settled h.settled, ?_⟩, hadv.held⟩
    have hstream := h.stream
    rw [show st.kcp.rcvQueue = st.kcp.incoming.rcvQueue from rfl, ← htransit] at hstream
    exact hstream
  · refine ⟨r, le_rfl, h.congr rfl rfl rfl rfl hinc hack, fun j hj => ?_⟩
    rw [hinc]
    exact hj

/-- **The end of a datagram**, in the direction that it confirms. -/
theorem Leg.inputEnd {st : InputState}
    (h : Leg conv st.kcp rcv hist una r flushed sent received streamed) (prevUna : IUINT32) :
    Leg conv (inputEnd prevUna st) rcv hist una r flushed sent received streamed := by
  have hout := h.way.outbound.inputEnd prevUna fun i seg fastack hP => hP
  obtain ⟨buf, cwnd, incr, heq, hbuf⟩ := inputEnd_spec prevUna st
  rw [heq] at hout ⊢
  refine { h with way := { h.way with outbound := hout, cover := ?_ } }
  intro i hi
  refine (h.way.cover i hi).imp_left ?_
  rintro ⟨hge, seg, hseg, hsn⟩
  obtain ⟨k, hk, rfl⟩ := List.mem_iff_getElem.mp hseg
  obtain ⟨fastack, hskip⟩ := List.Forall₂.get hbuf hk (by rw [← hbuf.length_eq]; exact hk)
  refine ⟨hge, _, List.get_mem buf ⟨k, by rw [← hbuf.length_eq]; exact hk⟩, ?_⟩
  exact (congrArg Ikcpseg.sn hskip).trans hsn

/-! ## A flush -/

/-- **A flush**, in the direction that it sends in. -/
theorem Leg.flush (h : Leg conv snd rcv hist una r flushed sent received streamed)
    (hupdated : snd.updated ≠ 0) :
    Leg conv (ikcpFlush snd).1 rcv
      (hist ++ snd.sndQueue.take (snd.sndQueue.length - (ikcpFlush snd).1.sndQueue.length))
      una r flushed sent received streamed := by
  obtain ⟨n, hway, hqueue⟩ := h.way.flush h.conv_eq (fun q hq => (h.queued q hq).bare) hupdated
  obtain ⟨hconv, hmss, hstream, -⟩ := flush_settings snd
  have hn : snd.sndQueue.take (snd.sndQueue.length - (ikcpFlush snd).1.sndQueue.length) =
      snd.sndQueue.take n := by
    rw [hqueue, List.length_drop]
    rcases Nat.le_total n snd.sndQueue.length with hle | hge
    · rw [Nat.sub_sub_self hle]
    · rw [List.take_of_length_le hge, List.take_of_length_le (by omega)]
  rw [hn]
  refine ⟨hway, hconv.trans h.conv_eq, ?_, ?_, ?_, ?_, h.settled, ?_⟩
  · intro q hq
    rcases List.mem_append.mp hq with hq | hq
    · exact h.numbered q hq
    · exact h.queued q (List.mem_of_mem_take hq)
  · rw [hqueue]
    exact fun q hq => h.queued q (List.mem_of_mem_drop hq)
  · rw [hmss]
    exact h.mss_pos
  · rw [hmss]
    exact h.mss_lt
  · have htransit : inTransit (hist ++ snd.sndQueue.take n) r rcv.rcvQueue (ikcpFlush snd).1.sndQueue =
        inTransit hist r rcv.rcvQueue snd.sndQueue := by
      rw [inTransit, inTransit, hqueue, List.drop_append_of_le_length h.way.arrived_le,
        List.append_assoc (hist.drop r), List.take_append_drop]
    rw [htransit, hstream]
    exact h.stream

/-- **A flush**, in the direction that it answers. -/
theorem Leg.answered (h : Leg conv snd rcv hist una r flushed sent received streamed)
    (hupdated : rcv.updated ≠ 0) :
    Leg conv snd (ikcpFlush rcv).1 hist una r hist.length sent received streamed := by
  obtain ⟨-, -, -, hinc⟩ := flush_settings rcv
  have hack : (ikcpFlush rcv).1.acklist = [] := by
    obtain ⟨_, _, _, _, _, _, _, _, _, -, -, -, -, -, heq⟩ := ikcpFlush_spec hupdated
    rw [heq]
  have h' : Leg conv snd { rcv with acklist := [] } hist una r hist.length sent received streamed :=
    { h with way := h.way.answered }
  exact h'.congr rfl rfl rfl rfl hinc hack

/-- What a flush says, in both directions: `hist` is the history of the end that flushes,
`back` that of the other. -/
theorem said_of_flush {kcp peer : Ikcpcb} {hist back : List Ikcpseg}
    {una r flushed una' r' flushed' : ℕ}
    {sent received sent' received' : List (List UInt8)} {streamed streamed' : Bool}
    (hleg : Leg conv (ikcpFlush kcp).1 peer hist una r flushed sent received streamed)
    (hback : Leg conv peer kcp back una' r' flushed' sent' received' streamed') {seg : Ikcpseg}
    (hseg : FlushSeg kcp seg) :
    Said conv hist (Confirmed back.length r' kcp.incoming) hist.length back.length seg := by
  have hconv : kcp.conv = conv := (flush_settings kcp).1.symm.trans hleg.conv_eq
  have hconfirms := hback.way.confirms hseg fun hmem => (hleg.way.carries hmem).2.1
  -- the segments without data
  have hcontrol (cmd : IUINT32) (hknown : knownCmd (cmd.setWidth 8)) (hlt : cmd.toNat < 256)
      (hne : cmd ≠ cmdPush) (hcmd : seg.cmd = cmd) (hsession : seg.conv = kcp.conv)
      (hfrg : seg.frg = 0) (hdata : seg.data = []) :
      Said conv hist (Confirmed back.length r' kcp.incoming) hist.length back.length seg := by
    refine ⟨⟨hsession.trans hconv, ?_, ?_⟩, ?_, ?_, fun hpush => ?_, hconfirms⟩
    · rwa [hcmd]
    · rw [hdata]
      exact Nat.zero_lt_succ _
    · rwa [hcmd]
    · rw [hfrg]
      exact Nat.zero_lt_succ _
    · exact absurd (hcmd.symm.trans hpush) hne
  cases hseg with
  | ack hack =>
    obtain ⟨ack, -, rfl⟩ := List.mem_map.mp hack
    exact hcontrol cmdAck (by decide) (by decide) (by decide) rfl rfl rfl rfl
  | probe hprobe =>
    rcases hprobe.cmd with hask | htell
    · exact hcontrol cmdWask (by decide) (by decide) (by decide) hask hprobe.conv hprobe.frg
        hprobe.data
    · exact hcontrol cmdWins (by decide) (by decide) (by decide) htell hprobe.conv hprobe.frg
        hprobe.data
  | data hmem _ huna =>
    obtain ⟨hcarries, hcmd, hconv', hbare⟩ := hleg.way.carries hmem
    have hplain := hleg.numbered _ hbare
    exact ⟨⟨hconv', by rw [hcmd]; decide, hplain.len⟩, by rw [hcmd]; decide, hplain.left, hcarries,
      hconfirms⟩

end Kcp
end UnixNetwork
