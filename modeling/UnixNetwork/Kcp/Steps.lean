import UnixNetwork.Kcp.Flush
import Mathlib.Data.List.Forall2

/-!
# What each function can change

One lemma for each function of `ikcp.c` that changes the control block, saying which
fields it writes and what a reader of them may rely on.  The other files reason from
these lemmas and do not unfold the functions.

What a function writes is given as a record update, so that a field it does not write
is unchanged by `rfl`.
-/

namespace UnixNetwork
namespace Kcp

open Bytes

/-! ## Bounds -/

theorem ibound_mem {lower middle upper : IUINT32} (h : lower ≤ upper) :
    lower ≤ ibound lower middle upper ∧ ibound lower middle upper ≤ upper := by
  unfold ibound imin imax
  constructor <;> (repeat' split) <;> bv_omega

theorem imin_le_right (a b : IUINT32) : imin a b ≤ b := by
  unfold imin
  split <;> bv_omega

/-! ## The sending half -/

/-- `ikcp_update_ack` writes the estimates of the round trip. -/
theorem ikcpUpdateAck_spec (kcp : Ikcpcb) (rtt : ℤ) :
    ∃ srtt rttval middle, ikcpUpdateAck kcp rtt =
      { kcp with
        rxSrtt := srtt
        rxRttval := rttval
        rxRto := (ibound (BitVec.ofInt 32 kcp.rxMinrto) middle rtoMax).toInt } := by
  unfold ikcpUpdateAck
  split
  · exact ⟨_, _, _, rfl⟩
  · exact ⟨_, _, _, rfl⟩

/-- `ikcp_shrink_buf` writes `snd_una`. -/
theorem ikcpShrinkBuf_spec (kcp : Ikcpcb) :
    ∃ una, ikcpShrinkBuf kcp = { kcp with sndUna := una } ∧
      ((kcp.sndBuf = [] ∧ una = kcp.sndNxt) ∨
        ∃ seg rest, kcp.sndBuf = seg :: rest ∧ una = seg.sn) := by
  unfold ikcpShrinkBuf
  split
  · rename_i seg rest hbuf
    exact ⟨seg.sn, rfl, .inr ⟨seg, rest, hbuf, rfl⟩⟩
  · rename_i hbuf
    exact ⟨kcp.sndNxt, rfl, .inl ⟨hbuf, rfl⟩⟩

theorem ackLoop_spec (sn : IUINT32) (segs : List Ikcpseg) :
    List.Sublist (ackLoop sn segs).1 segs ∧
      (ackLoop sn segs).1.length + (ackLoop sn segs).2 = segs.length ∧
      ∀ seg ∈ segs, seg ∈ (ackLoop sn segs).1 ∨ seg.sn = sn := by
  induction segs with
  | nil => exact ⟨List.Sublist.refl [], rfl, fun seg hseg => absurd hseg List.not_mem_nil⟩
  | cons a rest ih =>
    obtain ⟨hsub, hlen, hmem⟩ := ih
    unfold ackLoop
    split
    · rename_i hsn
      refine ⟨List.sublist_cons_self a rest, rfl, ?_⟩
      intro seg hseg
      rcases List.mem_cons.mp hseg with rfl | hseg
      · exact .inr hsn.symm
      · exact .inl hseg
    split
    · exact ⟨List.Sublist.refl _, rfl, fun seg hseg => .inl hseg⟩
    · refine ⟨hsub.cons_cons a, by simp only [List.length_cons]; omega, ?_⟩
      intro seg hseg
      rcases List.mem_cons.mp hseg with rfl | hseg
      · exact .inl List.mem_cons_self
      · exact (hmem seg hseg).imp_left (List.mem_cons_of_mem a)

/-- `ikcp_parse_ack` takes segments of one number out of `snd_buf`. -/
theorem ikcpParseAck_spec (kcp : Ikcpcb) (sn : IUINT32) :
    ∃ buf n, ikcpParseAck kcp sn =
        { kcp with sndBuf := buf, nsndBuf := kcp.nsndBuf - BitVec.ofNat 32 n } ∧
      List.Sublist buf kcp.sndBuf ∧ buf.length + n = kcp.sndBuf.length ∧
      ∀ seg ∈ kcp.sndBuf, seg ∈ buf ∨ seg.sn = sn := by
  unfold ikcpParseAck
  split
  · refine ⟨kcp.sndBuf, 0, ?_, List.Sublist.refl _, rfl, fun seg hseg => .inl hseg⟩
    rw [BitVec.sub_zero]
  · exact ⟨_, _, rfl, ackLoop_spec sn kcp.sndBuf⟩

theorem unaLoop_spec (una : IUINT32) (segs : List Ikcpseg) :
    List.Sublist (unaLoop una segs).1 segs ∧
      (unaLoop una segs).1.length + (unaLoop una segs).2 = segs.length ∧
      ∀ seg ∈ segs, seg ∈ (unaLoop una segs).1 ∨ 0 < itimediff una seg.sn := by
  induction segs with
  | nil => exact ⟨List.Sublist.refl [], rfl, fun seg hseg => absurd hseg List.not_mem_nil⟩
  | cons a rest ih =>
    obtain ⟨hsub, hlen, hmem⟩ := ih
    unfold unaLoop
    split
    · rename_i hpos
      refine ⟨hsub.cons a, by simp only [List.length_cons]; omega, ?_⟩
      intro seg hseg
      rcases List.mem_cons.mp hseg with rfl | hseg
      · exact .inr hpos
      · exact hmem seg hseg
    · exact ⟨List.Sublist.refl _, rfl, fun seg hseg => .inl hseg⟩

/-- `ikcp_parse_una` takes segments before `una` out of `snd_buf`. -/
theorem ikcpParseUna_spec (kcp : Ikcpcb) (una : IUINT32) :
    ∃ buf n, ikcpParseUna kcp una =
        { kcp with sndBuf := buf, nsndBuf := kcp.nsndBuf - BitVec.ofNat 32 n } ∧
      List.Sublist buf kcp.sndBuf ∧ buf.length + n = kcp.sndBuf.length ∧
      ∀ seg ∈ kcp.sndBuf, seg ∈ buf ∨ 0 < itimediff una seg.sn :=
  ⟨_, _, rfl, unaLoop_spec una kcp.sndBuf⟩

/-- A segment with its count of skips changed. -/
def Ikcpseg.skipped (seg : Ikcpseg) (fastack : IUINT32) : Ikcpseg :=
  { seg with fastack := fastack }

theorem fastackLoop_spec (sn : IUINT32) (segs : List Ikcpseg) :
    List.Forall₂ (fun seg seg' => ∃ fastack, seg' = seg.skipped fastack) segs
      (fastackLoop sn segs) := by
  induction segs with
  | nil => exact .nil
  | cons a rest ih =>
    have hrefl (segs : List Ikcpseg) : List.Forall₂
        (fun seg seg' : Ikcpseg => ∃ fastack, seg' = seg.skipped fastack) segs segs :=
      List.forall₂_same.mpr fun seg _ => ⟨seg.fastack, rfl⟩
    unfold fastackLoop
    split
    · exact hrefl (a :: rest)
    split
    · exact .cons ⟨_, rfl⟩ ih
    · exact .cons ⟨a.fastack, rfl⟩ ih

/-- `ikcp_parse_fastack` counts skips in `snd_buf`. -/
theorem ikcpParseFastack_spec (kcp : Ikcpcb) (sn : IUINT32) :
    ∃ buf, ikcpParseFastack kcp sn = { kcp with sndBuf := buf } ∧
      List.Forall₂ (fun seg seg' => ∃ fastack, seg' = seg.skipped fastack) kcp.sndBuf buf := by
  unfold ikcpParseFastack
  split
  · exact ⟨kcp.sndBuf, rfl, List.forall₂_same.mpr fun seg _ => ⟨seg.fastack, rfl⟩⟩
  · exact ⟨_, rfl, fastackLoop_spec sn kcp.sndBuf⟩

theorem openCwnd_spec (kcp : Ikcpcb) :
    ∃ cwnd incr, openCwnd kcp = { kcp with cwnd := cwnd, incr := incr } := by
  unfold openCwnd
  split
  · exact ⟨_, _, rfl⟩
  · exact ⟨_, _, rfl⟩

/-- The congestion window is all that opening it changes. -/
theorem growCwnd_spec (kcp : Ikcpcb) :
    ∃ cwnd incr, growCwnd kcp = { kcp with cwnd := cwnd, incr := incr } := by
  obtain ⟨cwnd, incr, hopen⟩ := openCwnd_spec kcp
  unfold growCwnd
  rw [hopen]
  dsimp only
  split
  · exact ⟨_, _, rfl⟩
  · exact ⟨_, _, rfl⟩

/-! ## The receiving half -/

/-- The search from the tail finds the number, or a place for it: nothing behind the place is
before the newcomer, and what is right before the place is. -/
theorem insertBack_spec (newseg : Ikcpseg) (segs : List Ikcpseg) :
    match insertBack newseg segs with
    | none => ∃ seg ∈ segs, seg.sn = newseg.sn
    | some buf => ∃ post pre, segs = post ++ pre ∧ buf = post ++ newseg :: pre ∧
        (∀ seg ∈ post, seg.sn ≠ newseg.sn ∧ ¬ 0 < itimediff newseg.sn seg.sn) ∧
        ∀ seg pre', pre = seg :: pre' → 0 < itimediff newseg.sn seg.sn := by
  induction segs with
  | nil => exact ⟨[], [], rfl, rfl, fun _ h => absurd h List.not_mem_nil, fun _ _ h => nomatch h⟩
  | cons a before ih =>
    unfold insertBack
    by_cases hsn : a.sn = newseg.sn
    · rw [if_pos hsn]
      exact ⟨a, List.mem_cons_self, hsn⟩
    rw [if_neg hsn]
    by_cases hpos : 0 < itimediff newseg.sn a.sn
    · rw [if_pos hpos]
      refine ⟨[], a :: before, rfl, rfl, fun _ h => absurd h List.not_mem_nil, ?_⟩
      rintro seg pre' h
      obtain ⟨rfl, rfl⟩ := List.cons.inj h
      exact hpos
    rw [if_neg hpos]
    cases hbefore : insertBack newseg before with
    | none =>
      rw [hbefore] at ih
      obtain ⟨seg, hseg, hsn'⟩ := ih
      exact ⟨seg, List.mem_cons_of_mem a hseg, hsn'⟩
    | some buf =>
      rw [hbefore] at ih
      obtain ⟨post, pre, rfl, rfl, hpost, hpre⟩ := ih
      refine ⟨a :: post, pre, rfl, rfl, ?_, hpre⟩
      intro seg hseg
      rcases List.mem_cons.mp hseg with rfl | hseg
      · exact ⟨hsn, hpos⟩
      · exact hpost seg hseg

/-- **How many segments the loop moves**, and why it stops. -/
theorem moveLoop_spec (kcp : Ikcpcb) (segs : List Ikcpseg) :
    ∃ n, n ≤ segs.length ∧
      moveLoop kcp segs =
        { kcp with
          rcvBuf := segs.drop n
          nrcvBuf := kcp.nrcvBuf - BitVec.ofNat 32 n
          rcvQueue := kcp.rcvQueue ++ segs.take n
          nrcvQue := kcp.nrcvQue + BitVec.ofNat 32 n
          rcvNxt := kcp.rcvNxt + BitVec.ofNat 32 n } ∧
      (∀ k seg, (segs.take n)[k]? = some seg → seg.sn = kcp.rcvNxt + BitVec.ofNat 32 k) ∧
      (0 < n → kcp.nrcvQue.toNat + n ≤ kcp.rcvWnd.toNat) ∧
      ∀ seg rest, segs.drop n = seg :: rest →
        seg.sn ≠ kcp.rcvNxt + BitVec.ofNat 32 n ∨ kcp.rcvWnd.toNat ≤ kcp.nrcvQue.toNat + n := by
  induction segs generalizing kcp with
  | nil => exact ⟨0, le_rfl, by simp [moveLoop], by simp, by simp, by simp⟩
  | cons a rest ih =>
    unfold moveLoop
    split
    · rename_i hnext
      obtain ⟨n, hn, heq, hsn, hroom, hstop⟩ := ih { kcp with
        nrcvBuf := kcp.nrcvBuf - 1
        rcvQueue := kcp.rcvQueue ++ [a]
        nrcvQue := kcp.nrcvQue + 1
        rcvNxt := kcp.rcvNxt + 1 }
      -- there is room, so the counter does not run over
      have hcount : (kcp.nrcvQue + 1).toNat = kcp.nrcvQue.toNat + 1 := by
        have hlt := BitVec.lt_def.mp hnext.2
        have hwnd := kcp.rcvWnd.isLt
        rw [BitVec.toNat_add]
        exact Nat.mod_eq_of_lt (show kcp.nrcvQue.toNat + 1 < 2 ^ 32 by omega)
      dsimp only at hsn hroom hstop
      rw [hcount] at hroom hstop
      refine ⟨n + 1, Nat.succ_le_succ hn, ?_, ?_, ?_, ?_⟩
      · rw [heq]
        dsimp only
        rw [Serial.add_one_add, Serial.add_one_add, Serial.sub_one_sub, List.append_assoc]
        rfl
      · intro k seg hk
        rw [List.take_succ_cons] at hk
        cases k with
        | zero =>
          obtain rfl := Option.some.inj hk
          rw [hnext.1]
          exact (BitVec.add_zero _).symm
        | succ k => rw [hsn k seg hk, Serial.add_one_add]
      · intro _
        rcases Nat.eq_zero_or_pos n with rfl | hpos
        · exact hnext.2
        · have := hroom hpos
          omega
      · intro seg rest' hdrop
        rw [← Serial.add_one_add]
        exact (hstop seg rest' hdrop).imp_right fun h => by omega
    · rename_i hnext
      refine ⟨0, Nat.zero_le _, ?_, by simp, by simp, ?_⟩
      · simp
      · intro seg rest' hdrop
        obtain ⟨rfl, rfl⟩ := List.cons.inj hdrop
        rw [not_and_or, BitVec.not_lt] at hnext
        exact hnext.imp_left fun h => by simpa using h

/-- What moving from `rcv_buf` to `rcv_queue` writes. -/
theorem moveAvailable_frame (kcp : Ikcpcb) :
    ∃ buf nbuf queue nque nxt, moveAvailable kcp =
      { kcp with
        rcvBuf := buf, nrcvBuf := nbuf, rcvQueue := queue, nrcvQue := nque, rcvNxt := nxt } := by
  obtain ⟨n, -, heq, -⟩ := moveLoop_spec kcp kcp.rcvBuf
  exact ⟨_, _, _, _, _, heq⟩

/-- `ikcp_recv` writes the receiving half, and asks for the window to be told. -/
theorem ikcpRecv_frame (kcp : Ikcpcb) (len : ℤ) :
    ∃ buf nbuf queue nque nxt probe, (ikcpRecv kcp len).1 =
      { kcp with
        rcvBuf := buf, nrcvBuf := nbuf, rcvQueue := queue, nrcvQue := nque, rcvNxt := nxt
        probe := probe } ∧
      (probe = kcp.probe ∨ probe = kcp.probe ||| askTell) := by
  unfold ikcpRecv
  split
  · exact ⟨_, _, _, _, _, _, rfl, .inl rfl⟩
  dsimp only
  split
  · exact ⟨_, _, _, _, _, _, rfl, .inl rfl⟩
  split
  · exact ⟨_, _, _, _, _, _, rfl, .inl rfl⟩
  obtain ⟨kcp', hkcp', hframe⟩ : ∃ kcp' : Ikcpcb, (if len < 0 then kcp else
      { kcp with
        rcvQueue := (takeMessage kcp.rcvQueue).2
        nrcvQue := kcp.nrcvQue - BitVec.ofNat 32 (takeMessage kcp.rcvQueue).1.length }) = kcp' ∧
      ∃ queue nque, kcp' = { kcp with rcvQueue := queue, nrcvQue := nque } := by
    refine ⟨_, rfl, ?_⟩
    split
    · exact ⟨_, _, rfl⟩
    · exact ⟨_, _, rfl⟩
  obtain ⟨queue, nque, hframe⟩ := hframe
  obtain ⟨buf, nbuf, queue', nque', nxt, hmove⟩ := moveAvailable_frame kcp'
  rw [hkcp', hmove, hframe]
  dsimp only
  split
  · exact ⟨_, _, _, _, _, _, rfl, .inr rfl⟩
  · exact ⟨_, _, _, _, _, _, rfl, .inl rfl⟩

/-- `ikcp_parse_data` writes the receiving half. -/
theorem ikcpParseData_frame (kcp : Ikcpcb) (newseg : Ikcpseg) :
    ∃ buf nbuf queue nque nxt, ikcpParseData kcp newseg =
      { kcp with
        rcvBuf := buf, nrcvBuf := nbuf, rcvQueue := queue, nrcvQue := nque, rcvNxt := nxt } := by
  unfold ikcpParseData
  split
  · exact ⟨_, _, _, _, _, rfl⟩
  cases insertBack newseg kcp.rcvBuf.reverse with
  | none => exact moveAvailable_frame kcp
  | some buf =>
    obtain ⟨buf', nbuf, queue, nque, nxt, heq⟩ :=
      moveAvailable_frame { kcp with rcvBuf := buf.reverse, nrcvBuf := kcp.nrcvBuf + 1 }
    exact ⟨buf', nbuf, queue, nque, nxt, heq⟩

/-- The numbers and times that data adds to `acklist`. -/
def pushAck (kcp : Ikcpcb) (sn ts : IUINT32) : List (IUINT32 × IUINT32) :=
  if itimediff sn (kcp.rcvNxt + kcp.rcvWnd) < 0 then kcp.acklist ++ [(sn, ts)] else kcp.acklist

/-- Data writes the receiving half and `acklist`. -/
theorem inputPush_frame (kcp : Ikcpcb) (h : Header) (data : List UInt8) :
    ∃ buf nbuf queue nque nxt, inputPush kcp h data =
      { kcp with
        rcvBuf := buf, nrcvBuf := nbuf, rcvQueue := queue, nrcvQue := nque, rcvNxt := nxt
        acklist := pushAck kcp h.sn h.ts } := by
  unfold inputPush pushAck
  split
  · dsimp only
    split
    · exact ikcpParseData_frame (ikcpAckPush kcp h.sn h.ts) (newSegment h data)
    · exact ⟨_, _, _, _, _, rfl⟩
  · exact ⟨_, _, _, _, _, rfl⟩

/-! ## A segment that arrives -/

/-- What every segment does before its command is looked at. -/
def arrival (kcp : Ikcpcb) (h : Header) : Ikcpcb :=
  ikcpShrinkBuf (ikcpParseUna { kcp with rmtWnd := h.wnd.setWidth 32 } h.una)

/-- Its fields: the peer's window, and the sending half without what lies before `una`. -/
theorem arrival_spec (kcp : Ikcpcb) (h : Header) :
    ∃ una buf n, arrival kcp h =
      { kcp with
        rmtWnd := h.wnd.setWidth 32, sndUna := una, sndBuf := buf
        nsndBuf := kcp.nsndBuf - BitVec.ofNat 32 n } ∧
      List.Sublist buf kcp.sndBuf ∧ buf.length + n = kcp.sndBuf.length ∧
      (∀ seg ∈ kcp.sndBuf, seg ∈ buf ∨ 0 < itimediff h.una seg.sn) ∧
      ((buf = [] ∧ una = kcp.sndNxt) ∨ ∃ seg rest, buf = seg :: rest ∧ una = seg.sn) := by
  obtain ⟨buf, n, hparse, hsub, hlen, hmem⟩ :=
    ikcpParseUna_spec { kcp with rmtWnd := h.wnd.setWidth 32 } h.una
  obtain ⟨una, hshrink, huna⟩ :=
    ikcpShrinkBuf_spec (ikcpParseUna { kcp with rmtWnd := h.wnd.setWidth 32 } h.una)
  rw [hparse] at hshrink huna
  refine ⟨una, buf, n, ?_, hsub, hlen, hmem, huna⟩
  rw [arrival, hparse, hshrink]

/-- An acknowledgement: the estimates, and the sending half without its number. -/
theorem inputAck_spec (st : InputState) (sn ts : IUINT32) :
    ∃ srtt rttval rto una buf n, (inputAck st sn ts).kcp =
      { st.kcp with
        rxSrtt := srtt, rxRttval := rttval, rxRto := rto
        sndUna := una, sndBuf := buf, nsndBuf := st.kcp.nsndBuf - BitVec.ofNat 32 n } ∧
      (rto = st.kcp.rxRto ∨
        ∃ middle, rto = (ibound (BitVec.ofInt 32 st.kcp.rxMinrto) middle rtoMax).toInt) ∧
      List.Sublist buf st.kcp.sndBuf ∧ buf.length + n = st.kcp.sndBuf.length ∧
      (∀ seg ∈ st.kcp.sndBuf, seg ∈ buf ∨ seg.sn = sn) ∧
      ((buf = [] ∧ una = st.kcp.sndNxt) ∨ ∃ seg rest, buf = seg :: rest ∧ una = seg.sn) := by
  -- the estimates
  obtain ⟨srtt, rttval, rto, hest, hrto⟩ : ∃ srtt rttval rto,
      (if 0 ≤ itimediff st.kcp.current ts
        then ikcpUpdateAck st.kcp (itimediff st.kcp.current ts) else st.kcp) =
      { st.kcp with rxSrtt := srtt, rxRttval := rttval, rxRto := rto } ∧
      (rto = st.kcp.rxRto ∨
        ∃ middle, rto = (ibound (BitVec.ofInt 32 st.kcp.rxMinrto) middle rtoMax).toInt) := by
    split
    · obtain ⟨srtt, rttval, middle, heq⟩ :=
        ikcpUpdateAck_spec st.kcp (itimediff st.kcp.current ts)
      exact ⟨srtt, rttval, _, heq, .inr ⟨middle, rfl⟩⟩
    · exact ⟨_, _, _, rfl, .inl rfl⟩
  -- the number
  obtain ⟨buf, n, hparse, hsub, hlen, hmem⟩ := ikcpParseAck_spec
    { st.kcp with rxSrtt := srtt, rxRttval := rttval, rxRto := rto } sn
  obtain ⟨una, hshrink, huna⟩ := ikcpShrinkBuf_spec
    (ikcpParseAck { st.kcp with rxSrtt := srtt, rxRttval := rttval, rxRto := rto } sn)
  rw [hparse] at hshrink huna
  refine ⟨srtt, rttval, rto, una, buf, n, ?_, hrto, hsub, hlen, hmem, huna⟩
  have hkcp : (inputAck st sn ts).kcp =
      ikcpShrinkBuf (ikcpParseAck { st.kcp with
        rxSrtt := srtt, rxRttval := rttval, rxRto := rto } sn) := by
    rw [← hest]
    unfold inputAck
    dsimp only
    split
    · rfl
    split
    · rfl
    · rfl
  rw [hkcp, hparse, hshrink]

/-- The branches for the commands. -/
theorem inputSeg_cases (st : InputState) (h : Header) (data : List UInt8) :
    (h.cmd.setWidth 32 = cmdAck ∧
      inputSeg st h data = inputAck { st with kcp := arrival st.kcp h } h.sn h.ts) ∨
    (h.cmd.setWidth 32 = cmdPush ∧
      inputSeg st h data = { st with kcp := inputPush (arrival st.kcp h) h data }) ∨
    (h.cmd.setWidth 32 ≠ cmdAck ∧ h.cmd.setWidth 32 ≠ cmdPush ∧
      ∃ probe, inputSeg st h data = { st with kcp := { arrival st.kcp h with probe := probe } }) := by
  unfold inputSeg
  by_cases hack : h.cmd.setWidth 32 = cmdAck
  · exact .inl ⟨hack, by rw [if_pos hack]; rfl⟩
  by_cases hpush : h.cmd.setWidth 32 = cmdPush
  · exact .inr (.inl ⟨hpush, by rw [if_neg hack, if_pos hpush]; rfl⟩)
  refine .inr (.inr ⟨hack, hpush, ?_⟩)
  rw [if_neg hack, if_neg hpush]
  split
  · exact ⟨_, rfl⟩
  · exact ⟨_, rfl⟩

/-- The session of a control block is not changed by what arrives. -/
theorem conv_inputSeg (st : InputState) (h : Header) (data : List UInt8) :
    (inputSeg st h data).kcp.conv = st.kcp.conv := by
  obtain ⟨una, buf, n, harr, -⟩ := arrival_spec st.kcp h
  rcases inputSeg_cases st h data with ⟨-, heq⟩ | ⟨-, heq⟩ | ⟨-, -, probe, heq⟩ <;> rw [heq]
  · obtain ⟨_, _, _, _, _, _, hack, -⟩ := inputAck_spec { st with kcp := arrival st.kcp h } h.sn h.ts
    rw [hack, harr]
  · obtain ⟨_, _, _, _, _, hpush⟩ := inputPush_frame (arrival st.kcp h) h data
    rw [hpush, harr]
  · rw [harr]

end Kcp
end UnixNetwork
