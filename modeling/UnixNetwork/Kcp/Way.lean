import UnixNetwork.Kcp.Receiving
import UnixNetwork.Kcp.Sending

/-!
# One direction of a session

The segments that go from one end of a session to the other, numbered forever: `hist`
is what has been numbered, in its order, and the serial number of `hist[i]` is `i` cut
to 32 bits.  `Way` relates the sending half of the one end, the receiving half of the
other, and the acknowledgements that wait there.

## What keeps the numbers unambiguous

A serial number that arrives is compared with `snd_una`, `rcv_nxt` and the numbers in
the buffers, and that means what it should as long as the indices behind them are less
than 2 ^ 31 apart, or 2 ^ 32 where numbers need only be told apart.  Three facts bound
how far they are.  No more than 65535 segments are in `snd_buf`.  What has left
`snd_buf` is held at the other end (`cover`), so the sender is not further ahead of the
receiver than two windows.  And a datagram is assumed to arrive before `lifetime` more
segments have been numbered; an acknowledgement that waits in `acklist` gets no older
than a window more, since the sender gets nowhere without the receiver's next flush
(`flushed`, the index up to which segments were numbered at the last one).

`Way.confirm` and `Way.carry` are the two halves of a segment that arrives: what it
confirms to the sender, what it carries to the receiver.
-/

namespace UnixNetwork
namespace Kcp

open Serial (Window Stretch)

/-- The most that a window is: the header has 16 bits for it. -/
def wireLimit : ℕ := 65535

/-- How many segments may be numbered while a datagram is under way: half of the number space,
less two windows. -/
def lifetime : ℕ := 2 ^ 31 - 2 ^ 17

/-- A segment as `ikcp_send` queues it. -/
def Ikcpseg.bare (seg : Ikcpseg) : Ikcpseg := { frg := seg.frg, data := seg.data }

/-- The segment is the one that has been numbered `i`. -/
def Genuine (hist : List Ikcpseg) (i : ℕ) (seg : Ikcpseg) : Prop := hist[i]? = some seg.bare

/-- It is, and is sent as data of the session. -/
def Sendable (conv : IUINT32) (hist : List Ikcpseg) (i : ℕ) (seg : Ikcpseg) : Prop :=
  Genuine hist i seg ∧ seg.cmd = cmdPush ∧ seg.conv = conv

/-- What the receiver holds and has had a flush to say so. -/
def Confirmed (flushed r : ℕ) (rcv : Incoming) (i : ℕ) : Prop :=
  i < flushed ∧ Held wireLimit r rcv i

/-- One direction of a session. -/
structure Way (conv : IUINT32) (hist : List Ikcpseg) (una r flushed : ℕ) (snd : Outgoing)
    (rcv : Incoming) (acklist : List (IUINT32 × IUINT32)) : Prop where
  outbound : Outbound (Sendable conv hist) una hist.length snd
  inbound : Inbound (Genuine hist) wireLimit r rcv
  arrived_le : r ≤ hist.length
  flushed_le : flushed ≤ hist.length
  /-- What is not in `snd_buf` any more is confirmed. -/
  cover : ∀ i < hist.length,
    (una ≤ i ∧ ∃ seg ∈ snd.sndBuf, seg.sn = BitVec.ofNat 32 i) ∨ Confirmed flushed r rcv i
  acks : ∀ ack ∈ acklist, ∃ j, ack.1 = BitVec.ofNat 32 j ∧ Held wireLimit r rcv j ∧
    j < hist.length ∧ flushed ≤ j + lifetime + wireLimit

variable {conv : IUINT32} {hist : List Ikcpseg} {una r flushed : ℕ} {snd : Outgoing}
  {rcv : Incoming} {acklist : List (IUINT32 × IUINT32)}

theorem Way.una_le (h : Way conv hist una r flushed snd rcv acklist) : una ≤ flushed := by
  rcases Nat.eq_zero_or_pos una with rfl | hpos
  · exact Nat.zero_le _
  have hle := h.outbound.le
  rcases h.cover (una - 1) (by omega) with ⟨hge, -⟩ | hconf
  · omega
  · have := hconf.1
    omega

/-- The sender is at most two windows ahead of the receiver. -/
theorem Way.ahead (h : Way conv hist una r flushed snd rcv acklist) :
    hist.length ≤ r + 2 * wireLimit := by
  have hflight : hist.length ≤ una + wireLimit := h.outbound.flight
  rcases Nat.eq_zero_or_pos una with hzero | hpos
  · omega
  have hle := h.outbound.le
  rcases h.cover (una - 1) (by omega) with ⟨hge, -⟩ | hconf
  · omega
  · have := hconf.2.lt
    omega

/-- What is held has been moved, unless the receive queue is full. -/
theorem Way.arrived (h : Way conv hist una r flushed snd rcv acklist) (hset : Settled rcv)
    (hroom : rcv.nrcvQue.toNat < 128) {n : ℕ} (hall : ∀ i < n, Held wireLimit r rcv i) : n ≤ r := by
  by_contra hlt
  exact h.inbound.not_held hset hroom (hall r (Nat.not_le.mp hlt))

theorem Confirmed.mono {flushed' r' : ℕ} {rcv' : Incoming} {i : ℕ}
    (h : Confirmed flushed r rcv i) (hflushed : flushed ≤ flushed')
    (hheld : ∀ i, Held wireLimit r rcv i → Held wireLimit r' rcv' i) :
    Confirmed flushed' r' rcv' i :=
  ⟨h.1.trans_le hflushed, hheld i h.2⟩

/-- **The receiving half moves on.** -/
theorem Way.advance {rcv' : Incoming} {moved : List Ikcpseg}
    (h : Way conv hist una r flushed snd rcv acklist)
    (hadv : Advance (Genuine hist) wireLimit r rcv rcv' moved) :
    Way conv hist una (r + moved.length) flushed snd rcv' acklist := by
  have harrived := h.arrived_le
  have hmoved : r + moved.length ≤ hist.length := by
    rcases Nat.eq_zero_or_pos moved.length with hzero | hpos
    · omega
    have hlast := hadv.stretch (moved.length - 1) (moved[moved.length - 1])
      (List.getElem?_eq_getElem (by omega))
    have := (List.getElem?_eq_some_iff.mp hlast).1
    omega
  refine ⟨h.outbound, hadv.inbound, hmoved, h.flushed_le, ?_, ?_⟩
  · intro i hi
    exact (h.cover i hi).imp_right fun hconf => hconf.mono le_rfl hadv.held
  · intro ack hack
    obtain ⟨j, hj, hheld, hlt, hage⟩ := h.acks ack hack
    exact ⟨j, hj, hadv.held j hheld, hlt, hage⟩

/-! ## What a segment says -/

/-- What a segment carries: data is of the history, and was in the sender's window when `n`
segments had been numbered. -/
def Carries (hist : List Ikcpseg) (n : ℕ) (seg : Ikcpseg) : Prop :=
  seg.cmd = cmdPush → ∃ i, i < n ∧ n ≤ i + wireLimit ∧ n ≤ hist.length ∧
    hist[i]? = some seg.bare ∧ seg.sn = BitVec.ofNat 32 i

/-- What a segment confirms, for a sender that had numbered `n` segments when it was sent. -/
structure Confirms (confirmed : ℕ → Prop) (n : ℕ) (seg : Ikcpseg) : Prop where
  una : ∃ u, seg.una = BitVec.ofNat 32 u ∧ (∀ j < u, confirmed j) ∧ n ≤ u + 2 * wireLimit
  ack : seg.cmd = cmdAck → ∃ j, seg.sn = BitVec.ofNat 32 j ∧ confirmed j ∧
    n ≤ j + lifetime + 2 * wireLimit

theorem Carries.mono {n : ℕ} {seg : Ikcpseg} {hist' : List Ikcpseg} (h : Carries hist n seg)
    (hhist : hist <+: hist') : Carries hist' n seg := by
  intro hcmd
  obtain ⟨i, hi₁, hi₂, hn, hget, hsn⟩ := h hcmd
  refine ⟨i, hi₁, hi₂, hn.trans hhist.length_le, ?_, hsn⟩
  obtain ⟨later, rfl⟩ := hhist
  rw [List.getElem?_append_left (by omega), hget]

theorem Confirms.mono {n : ℕ} {seg : Ikcpseg} {confirmed confirmed' : ℕ → Prop}
    (h : Confirms confirmed n seg) (hmono : ∀ j, confirmed j → confirmed' j) :
    Confirms confirmed' n seg where
  una := by
    obtain ⟨u, hu, hall, hn⟩ := h.una
    exact ⟨u, hu, fun j hj => hmono j (hall j hj), hn⟩
  ack := by
    intro hcmd
    obtain ⟨j, hj, hconf, hn⟩ := h.ack hcmd
    exact ⟨j, hj, hmono j hconf, hn⟩

/-- The command in a header is the one that the segment has. -/
theorem setWidth_cmd {cmd : IUINT32} (hcmd : cmd.toNat < 256) :
    (cmd.setWidth 8).setWidth 32 = cmd := by
  rw [← BitVec.toNat_inj, BitVec.toNat_setWidth, BitVec.toNat_setWidth]
  omega

/-! ## A segment that arrives -/

/-- **What a segment confirms**, at the sender: only what is confirmed leaves `snd_buf`. -/
theorem Way.confirm {st : InputState} {seg : Ikcpseg} {n : ℕ}
    (h : Way conv hist una r flushed st.kcp.outgoing rcv acklist)
    (hseg : Confirms (Confirmed flushed r rcv) n seg) (hcmd : seg.cmd.toNat < 256)
    (hn : hist.length < n + lifetime) :
    ∃ una', una ≤ una' ∧
      Way conv hist una' r flushed (inputSeg st seg.header seg.data).kcp.outgoing rcv acklist ∧
      (inputSeg st seg.header seg.data).kcp.sndQueue = st.kcp.sndQueue := by
  obtain ⟨una', hle, hnxt, hout, hqueue, hsub, hmem⟩ := h.outbound.inputSeg seg.header seg.data
  refine ⟨una', hle, ⟨hout, h.inbound, h.arrived_le, h.flushed_le, ?_, h.acks⟩, hqueue⟩
  have hflight : hist.length ≤ una + wireLimit := h.outbound.flight
  have hflushed := h.flushed_le
  intro i hi
  rcases h.cover i hi with ⟨hge, a, ha, hkey⟩ | hconf
  swap
  · exact .inr hconf
  have hleft : a ∈ (inputSeg st seg.header seg.data).kcp.sndBuf ∨ Confirmed flushed r rcv i := by
    rcases hmem a ha with hstays | hpos | ⟨hack, hsn⟩
    · exact .inl hstays
    · obtain ⟨u, hu, hall, hnu⟩ := hseg.una
      have hule : u ≤ hist.length := by
        rcases Nat.eq_zero_or_pos u with hzero | hpos
        · omega
        · have := (hall (u - 1) (by omega)).1
          omega
      rw [show seg.header.una = BitVec.ofNat 32 u from hu, hkey, itimediff,
        Serial.diff_pos_iff (by unfold wireLimit lifetime at *; constructor <;> omega)] at hpos
      exact .inr (hall i hpos)
    · rw [show seg.header.cmd.setWidth 32 = seg.cmd from setWidth_cmd hcmd] at hack
      obtain ⟨j, hj, hconf, hnj⟩ := hseg.ack hack
      have hjf := hconf.1
      have hij : i = j := by
        unfold wireLimit lifetime at *
        exact Serial.eq_of_ofNat_eq_of_lt (w := 32) (by omega) (by omega)
          (hkey.symm.trans (hsn.trans hj))
      exact .inr (hij ▸ hconf)
  rcases hleft with hstays | hconf
  swap
  · exact .inr hconf
  refine .inl ⟨?_, a, hstays, hkey⟩
  -- what is in `snd_buf` is not before the new `snd_una`
  obtain ⟨k, hk₁, hk₂, hkeyk, -⟩ := hout.window.index a hstays
  have hik : i = k := by
    refine Serial.eq_of_ofNat_eq (w := 32) ?_ (hkey.symm.trans hkeyk)
    unfold wireLimit at *
    constructor <;> omega
  omega

/-- The segment that is allocated for data is the one that was sent. -/
theorem bare_newSegment {seg : Ikcpseg} (hfrg : seg.frg.toNat < 256) :
    (newSegment seg.header seg.data).bare = seg.bare := by
  have h : (seg.frg.setWidth 8).setWidth 32 = seg.frg := setWidth_cmd hfrg
  simp only [Ikcpseg.bare, newSegment, Ikcpseg.header, h]

/-- **What a segment carries**, at the receiver: data in the window is held and acknowledged from
then on, older data is acknowledged again. -/
theorem Way.carry {kcp : Ikcpcb} {seg : Ikcpseg} {n : ℕ}
    (h : Way conv hist una r flushed snd kcp.incoming kcp.acklist)
    (hseg : Carries hist n seg) (hcmd : seg.cmd = cmdPush) (hfrg : seg.frg.toNat < 256)
    (hn : hist.length < n + lifetime) :
    ∃ moved, Advance (Genuine hist) wireLimit r kcp.incoming
        (inputPush kcp seg.header seg.data).incoming moved ∧
      Way conv hist una (r + moved.length) flushed snd
        (inputPush kcp seg.header seg.data).incoming
        (inputPush kcp seg.header seg.data).acklist := by
  obtain ⟨i, hin, hni, hnl, hget, hsn⟩ := hseg hcmd
  have hahead := h.ahead
  have harrived := h.arrived_le
  have hflushed := h.flushed_le
  have hshort : (wireLimit : ℕ) < 2 ^ 31 := h.inbound.short
  have hmost : kcp.rcvWnd.toNat ≤ wireLimit := h.inbound.most
  have hnxt : kcp.rcvNxt = BitVec.ofNat 32 r := h.inbound.rcvNxt
  have hwnd : kcp.rcvNxt + kcp.rcvWnd = BitVec.ofNat 32 (r + kcp.rcvWnd.toNat) := by
    rw [hnxt, BitVec.ofNat_add, BitVec.ofNat_toNat, BitVec.setWidth_eq]
  have hbelow : itimediff seg.header.sn (kcp.rcvNxt + kcp.rcvWnd) < 0 ↔
      i < r + kcp.rcvWnd.toNat := by
    rw [hwnd, show seg.header.sn = BitVec.ofNat 32 i from hsn, itimediff]
    exact Serial.diff_neg_iff (by unfold wireLimit lifetime at *; constructor <;> omega)
  have hfrom : 0 ≤ itimediff seg.header.sn kcp.rcvNxt ↔ r ≤ i := by
    rw [hnxt, show seg.header.sn = BitVec.ofNat 32 i from hsn, itimediff]
    exact Serial.diff_nonneg_iff (by unfold wireLimit lifetime at *; constructor <;> omega)
  -- the receiving half, and that the index is held if it is acknowledged
  obtain ⟨moved, hadv, hheld⟩ : ∃ moved, Advance (Genuine hist) wireLimit r kcp.incoming
      (inputPush kcp seg.header seg.data).incoming moved ∧
      (i < r + kcp.rcvWnd.toNat →
        Held wireLimit (r + moved.length) (inputPush kcp seg.header seg.data).incoming i) := by
    unfold inputPush
    split
    swap
    · rename_i hout
      exact ⟨[], Advance.refl h.inbound, fun hi => absurd (hbelow.mpr hi) hout⟩
    dsimp only
    split
    swap
    · rename_i hold
      refine ⟨[], Advance.refl h.inbound, fun _ => .inl ?_⟩
      have : ¬ r ≤ i := fun hle => hold (hfrom.mpr hle)
      rw [List.length_nil]
      omega
    rename_i hin' hge
    have hinb : Inbound (Genuine hist) wireLimit r
        (ikcpAckPush kcp seg.header.sn seg.header.ts).incoming := h.inbound
    obtain ⟨moved, hadv, hnew⟩ := hinb.parseData (newSegment seg.header seg.data) (by
      intro k hk₁ hk₂ hkey
      have hik : k = i := by
        refine Serial.eq_of_ofNat_eq (w := 32) ?_ (hkey.symm.trans hsn)
        have hk₂' : k < r + kcp.rcvWnd.toNat := hk₂
        unfold wireLimit lifetime at *
        constructor <;> omega
      rw [hik, Genuine, bare_newSegment hfrg]
      exact hget)
    exact ⟨moved, hadv, fun hi => hnew i (hfrom.mp hge) hi hsn⟩
  have hway := h.advance hadv
  refine ⟨moved, hadv, { hway with acks := ?_ }⟩
  obtain ⟨_, _, _, _, _, hframe⟩ := inputPush_frame kcp seg.header seg.data
  intro ack hack
  rw [show (inputPush kcp seg.header seg.data).acklist = pushAck kcp seg.sn seg.ts by
    rw [hframe]; rfl, pushAck] at hack
  split at hack
  swap
  · exact hway.acks ack hack
  rename_i hin'
  rcases List.mem_append.mp hack with hack | hack
  · exact hway.acks ack hack
  · obtain rfl := List.mem_singleton.mp hack
    exact ⟨i, hsn, hheld (hbelow.mp hin'), by omega, by omega⟩

/-! ## A flush at the sender -/

theorem Genuine.frame {i : ℕ} {seg seg' : Ikcpseg} (h : Genuine hist i seg)
    (hfrg : seg'.frg = seg.frg) (hdata : seg'.data = seg.data) : Genuine hist i seg' := by
  unfold Genuine Ikcpseg.bare at *
  rw [h, hfrg, hdata]

theorem Genuine.prefix_iff {later : List Ikcpseg} {i : ℕ} {seg : Ikcpseg} (hi : i < hist.length) :
    Genuine (hist ++ later) i seg ↔ Genuine hist i seg := by
  rw [Genuine, Genuine, List.getElem?_append_left hi]

/-- **A flush at the sender** numbers segments, which are new in the history and in `snd_buf`. -/
theorem Way.flush {kcp : Ikcpcb} (h : Way conv hist una r flushed kcp.outgoing rcv acklist)
    (hconv : kcp.conv = conv) (hbare : ∀ q ∈ kcp.sndQueue, q.bare = q)
    (hupdated : kcp.updated ≠ 0) :
    ∃ n, Way conv (hist ++ kcp.sndQueue.take n) una r flushed (ikcpFlush kcp).1.outgoing rcv
        acklist ∧
      (ikcpFlush kcp).1.sndQueue = kcp.sndQueue.drop n := by
  -- `snd_buf`, over the history with all of the queue behind it
  have hall : Outbound (Sendable conv (hist ++ kcp.sndQueue)) una hist.length kcp.outgoing :=
    h.outbound.imp fun i seg _ hi hP => ⟨(Genuine.prefix_iff hi).mpr hP.1, hP.2⟩
  obtain ⟨n, hn, -, hout, hqueue, hbuf⟩ := hall.flush hupdated (by
    intro k seg hk
    rw [List.getElem?_mapIdx] at hk
    obtain ⟨q, hq, rfl⟩ := Option.map_eq_some_iff.mp hk
    refine ⟨?_, rfl, hconv⟩
    rw [Genuine, List.getElem?_append_right (Nat.le_add_right _ _), Nat.add_sub_cancel_left, hq]
    exact congrArg some (hbare q (List.mem_of_getElem? hq)).symm) (by
    intro i seg hP
    obtain ⟨-, hconv', hcmd', hfrg', hdata'⟩ := due_frame kcp (ikcpWndUnused kcp)
      (resentOf kcp) (rtominOf kcp) seg
    exact ⟨hP.1.frame hfrg' hdata', hcmd'.trans hP.2.1, hconv'.trans hP.2.2⟩)
  have hlen : (hist ++ kcp.sndQueue.take n).length = hist.length + n := by
    rw [List.length_append, List.length_take_of_le hn]
  have hsplit : hist ++ kcp.sndQueue = (hist ++ kcp.sndQueue.take n) ++ kcp.sndQueue.drop n := by
    rw [List.append_assoc, List.take_append_drop]
  have hle := h.outbound.le
  have harrived := h.arrived_le
  have hflushed := h.flushed_le
  refine ⟨n, ⟨?_, ?_, by omega, by omega, ?_, ?_⟩, hqueue⟩
  · rw [hlen]
    refine hout.imp fun i seg _ hi hP => ⟨?_, hP.2⟩
    rw [hsplit] at hP
    exact (Genuine.prefix_iff (by omega)).mp hP.1
  · have hahead := h.ahead
    refine { h.inbound with window := ?_ }
    refine ⟨h.inbound.window.short, ?_, h.inbound.window.sorted⟩
    intro seg hseg
    obtain ⟨i, hi₁, hi₂, hkey, hP⟩ := h.inbound.window.index seg hseg
    have hi : i < hist.length := (List.getElem?_eq_some_iff.mp hP).1
    exact ⟨i, hi₁, hi₂, hkey, (Genuine.prefix_iff hi).mpr hP⟩
  · intro i hi
    rw [hlen] at hi
    rcases Nat.lt_or_ge i hist.length with hold | hnew
    · refine (h.cover i hold).imp_left ?_
      rintro ⟨hge, hseg⟩
      exact ⟨hge, hbuf i hi (.inr hseg)⟩
    · exact .inl ⟨by omega, hbuf i hi (.inl hnew)⟩
  · intro ack hack
    obtain ⟨j, hj, hheld, hlt, hage⟩ := h.acks ack hack
    exact ⟨j, hj, hheld, by omega, hage⟩

/-- What a segment in `snd_buf` carries. -/
theorem Way.carries (h : Way conv hist una r flushed snd rcv acklist) {seg : Ikcpseg}
    (hseg : seg ∈ snd.sndBuf) :
    Carries hist hist.length seg ∧ seg.cmd = cmdPush ∧ seg.conv = conv ∧ seg.bare ∈ hist := by
  obtain ⟨i, hi₁, hi₂, hkey, hgen, hcmd, hconv⟩ := h.outbound.window.index seg hseg
  have hflight : hist.length ≤ una + wireLimit := h.outbound.flight
  exact ⟨fun _ => ⟨i, hi₂, by omega, le_rfl, hgen, hkey⟩, hcmd, hconv, List.mem_of_getElem? hgen⟩

/-! ## A flush at the receiver -/

/-- A flush changes neither the settings nor the receiving half. -/
theorem flush_settings (kcp : Ikcpcb) :
    (ikcpFlush kcp).1.conv = kcp.conv ∧ (ikcpFlush kcp).1.mss = kcp.mss ∧
      (ikcpFlush kcp).1.stream = kcp.stream ∧ (ikcpFlush kcp).1.incoming = kcp.incoming := by
  by_cases hupdated : kcp.updated = 0
  · rw [ikcpFlush, if_pos hupdated]
    exact ⟨rfl, rfl, rfl, rfl⟩
  · obtain ⟨_, _, _, _, _, _, _, _, _, -, -, -, -, -, heq⟩ := ikcpFlush_spec hupdated
    rw [heq]
    exact ⟨rfl, rfl, rfl, rfl⟩

/-- **A flush at the receiver** confirms all that is held. -/
theorem Way.answered (h : Way conv hist una r flushed snd rcv acklist) :
    Way conv hist una r hist.length snd rcv [] where
  outbound := h.outbound
  inbound := h.inbound
  arrived_le := h.arrived_le
  flushed_le := le_rfl
  cover := fun i hi => (h.cover i hi).imp_right fun hconf => hconf.mono h.flushed_le fun _ => id
  acks := fun _ hack => absurd hack List.not_mem_nil

/-- What a segment of that flush confirms. -/
theorem Way.confirms {kcp : Ikcpcb} (h : Way conv hist una r flushed snd kcp.incoming kcp.acklist)
    {seg : Ikcpseg} (hseg : FlushSeg kcp seg)
    (hdata : seg ∈ (ikcpFlush kcp).1.sndBuf → seg.cmd = cmdPush) :
    Confirms (Confirmed hist.length r kcp.incoming) hist.length seg := by
  have hnxt : kcp.rcvNxt = BitVec.ofNat 32 r := h.inbound.rcvNxt
  have harrived := h.arrived_le
  refine ⟨⟨r, hseg.una.trans hnxt, fun j hj => ⟨by omega, .inl hj⟩, h.ahead⟩, fun hcmd => ?_⟩
  cases hseg with
  | ack hack =>
    obtain ⟨ack, hmem, rfl⟩ := List.mem_map.mp hack
    obtain ⟨j, hj, hheld, hlt, hage⟩ := h.acks ack hmem
    have hflight : hist.length ≤ una + wireLimit := h.outbound.flight
    have hle := h.una_le
    exact ⟨j, hj, ⟨hlt, hheld⟩, by omega⟩
  | probe hprobe =>
    rcases hprobe.cmd with hask | htell
    · exact absurd (hask.symm.trans hcmd) (by decide)
    · exact absurd (htell.symm.trans hcmd) (by decide)
  | data hmem _ _ => exact absurd ((hdata hmem).symm.trans hcmd) (by decide)

end Kcp
end UnixNetwork
