import UnixNetwork.Kcp.Flushing
import UnixNetwork.Arq.Window

/-!
# The sending half

`snd_buf` holds what has been numbered and not yet been acknowledged, from `snd_una`
to `snd_nxt`.  `Outbound` is the invariant, for indices `una` and `nxt` of which these
two are the serial numbers: `snd_buf` is a window from the one to the other that
begins with `una`, there are never more than 65535 numbers between them, and the
counters count, that of `snd_queue` as far as 32 bits go.

The bound is that of the peer's window, which the header has 16 bits for.  It is what
keeps the numbers in `snd_buf` comparable, so nothing that arrives may break it,
whatever its bytes are: `Outbound.inputSeg`, `Outbound.inputEnd`, `Outbound.flush`.
-/

namespace UnixNetwork
namespace Kcp

open Serial (Window Stretch)

/-- The fields of the sending half. -/
structure Outgoing where
  sndUna : IUINT32
  sndNxt : IUINT32
  rmtWnd : IUINT32
  sndBuf : List Ikcpseg
  sndQueue : List Ikcpseg
  nsndBuf : IUINT32
  nsndQue : IUINT32

def Ikcpcb.outgoing (kcp : Ikcpcb) : Outgoing where
  sndUna := kcp.sndUna
  sndNxt := kcp.sndNxt
  rmtWnd := kcp.rmtWnd
  sndBuf := kcp.sndBuf
  sndQueue := kcp.sndQueue
  nsndBuf := kcp.nsndBuf
  nsndQue := kcp.nsndQue

/-- **The invariant of the sending half.** -/
structure Outbound (P : ℕ → Ikcpseg → Prop) (una nxt : ℕ) (s : Outgoing) : Prop where
  sndUna : s.sndUna = BitVec.ofNat 32 una
  sndNxt : s.sndNxt = BitVec.ofNat 32 nxt
  window : Window Ikcpseg.sn P una nxt s.sndBuf
  le : una ≤ nxt
  flight : nxt ≤ una + 65535
  nsndBuf : s.nsndBuf = BitVec.ofNat 32 s.sndBuf.length
  nsndQue : s.nsndQue = BitVec.ofNat 32 s.sndQueue.length
  rmtWnd : s.rmtWnd.toNat ≤ 65535
  oldest : (s.sndBuf = [] ∧ una = nxt) ∨
    ∃ seg rest, s.sndBuf = seg :: rest ∧ seg.sn = BitVec.ofNat 32 una

variable {P : ℕ → Ikcpseg → Prop} {una nxt : ℕ} {s : Outgoing} {kcp : Ikcpcb}

theorem outbound_ikcpCreate (P : ℕ → Ikcpseg → Prop) (conv : IUINT32) :
    Outbound P 0 0 (ikcpCreate conv).outgoing where
  sndUna := rfl
  sndNxt := rfl
  window := Window.nil (by decide)
  le := le_rfl
  flight := Nat.zero_le _
  nsndBuf := rfl
  nsndQue := rfl
  rmtWnd := show wndRcv.toNat ≤ 65535 by decide
  oldest := .inl ⟨rfl, rfl⟩

/-- **Taking segments out** and moving `snd_una` to the first that is left, or to `snd_nxt`. -/
theorem Outbound.retire (h : Outbound P una nxt s) {buf : List Ikcpseg} {n : ℕ}
    {sndUna rmtWnd : IUINT32} (hrmt : rmtWnd.toNat ≤ 65535) (hsub : List.Sublist buf s.sndBuf)
    (hlen : buf.length + n = s.sndBuf.length)
    (hhead : (buf = [] ∧ sndUna = s.sndNxt) ∨ ∃ seg rest, buf = seg :: rest ∧ sndUna = seg.sn) :
    ∃ una', una ≤ una' ∧ una' ≤ nxt ∧
      Outbound P una' nxt
        { s with
          rmtWnd := rmtWnd, sndUna := sndUna, sndBuf := buf
          nsndBuf := s.nsndBuf - BitVec.ofNat 32 n } := by
  have hcount : s.nsndBuf - BitVec.ofNat 32 n = BitVec.ofNat 32 buf.length := by
    rw [h.nsndBuf, ← hlen, Serial.ofNat_sub_ofNat (Nat.le_add_left _ _), Nat.add_sub_cancel]
  have hwindow := h.window.sublist hsub
  have hle := h.le
  have hflight := h.flight
  rcases hhead with ⟨rfl, hnxt⟩ | ⟨seg, rest, rfl, hseg⟩
  · exact ⟨nxt, h.le, le_rfl, hnxt.trans h.sndNxt, h.sndNxt,
      Window.nil (by omega), le_rfl, by omega, hcount, h.nsndQue, hrmt, .inl ⟨rfl, rfl⟩⟩
  · obtain ⟨i, hi₁, hi₂, hkey, -⟩ := hwindow.index seg List.mem_cons_self
    exact ⟨i, hi₁, hi₂.le, hseg.trans hkey, h.sndNxt, hwindow.raise hi₁ hi₂ hkey, hi₂.le, by omega,
      hcount, h.nsndQue, hrmt, .inr ⟨seg, rest, rfl, hkey⟩⟩

/-! ## What arrives -/

theorem toNat_setWidth_le (wnd : IUINT16) : (wnd.setWidth 32 : IUINT32).toNat ≤ 65535 := by
  have hlt := wnd.isLt
  rw [BitVec.toNat_setWidth]
  exact (Nat.mod_le _ _).trans (by omega)

/-- **A segment that arrives**, whatever it is: `snd_una` does not go back, and what leaves
`snd_buf` is before its `una` or has the number it acknowledges. -/
theorem Outbound.inputSeg {st : InputState} (hst : Outbound P una nxt st.kcp.outgoing) (h : Header)
    (data : List UInt8) :
    ∃ una', una ≤ una' ∧ una' ≤ nxt ∧ Outbound P una' nxt (inputSeg st h data).kcp.outgoing ∧
      (Kcp.inputSeg st h data).kcp.sndQueue = st.kcp.sndQueue ∧
      List.Sublist (Kcp.inputSeg st h data).kcp.sndBuf st.kcp.sndBuf ∧
      ∀ seg ∈ st.kcp.sndBuf, seg ∈ (Kcp.inputSeg st h data).kcp.sndBuf ∨
        0 < itimediff h.una seg.sn ∨ h.cmd.setWidth 32 = cmdAck ∧ seg.sn = h.sn := by
  obtain ⟨sndUna, buf, n, harr, hsub, hlen, hmem, hhead⟩ := arrival_spec st.kcp h
  obtain ⟨una', hle, hnxt, hout⟩ := hst.retire (toNat_setWidth_le h.wnd) hsub hlen hhead
  have hstays : Outbound P una' nxt (arrival st.kcp h).outgoing := by
    rw [harr]
    exact hout
  rcases inputSeg_cases st h data with ⟨hcmd, heq⟩ | ⟨-, heq⟩ | ⟨-, -, probe, heq⟩ <;> rw [heq]
  · obtain ⟨_, _, _, sndUna', buf', n', hack, -, hsub', hlen', hmem', hhead'⟩ :=
      inputAck_spec { st with kcp := arrival st.kcp h } h.sn h.ts
    obtain ⟨una'', hle', hnxt', hout'⟩ := hstays.retire hstays.rmtWnd hsub' hlen' hhead'
    rw [hack]
    rw [harr] at hsub' hmem' ⊢
    refine ⟨una'', hle.trans hle', hnxt', by rwa [harr] at hout', rfl, hsub'.trans hsub, ?_⟩
    intro seg hseg
    rcases hmem seg hseg with hbuf | hpos
    · exact (hmem' seg hbuf).imp_right fun hsn => .inr ⟨hcmd, hsn⟩
    · exact .inr (.inl hpos)
  · obtain ⟨_, _, _, _, _, hpush⟩ := inputPush_frame (arrival st.kcp h) h data
    rw [hpush]
    rw [harr] at hstays ⊢
    exact ⟨una', hle, hnxt, hstays, rfl, hsub, fun seg hseg => (hmem seg hseg).imp_right .inl⟩
  · rw [harr] at hstays ⊢
    exact ⟨una', hle, hnxt, hstays, rfl, hsub, fun seg hseg => (hmem seg hseg).imp_right .inl⟩

/-- Counting skips and opening the congestion window change nothing else. -/
theorem inputEnd_spec (prevUna : IUINT32) (st : InputState) :
    ∃ buf cwnd incr, inputEnd prevUna st =
      { st.kcp with sndBuf := buf, cwnd := cwnd, incr := incr } ∧
      List.Forall₂ (fun seg seg' => ∃ fastack, seg' = seg.skipped fastack) st.kcp.sndBuf buf := by
  obtain ⟨buf, hfast, hbuf⟩ : ∃ buf,
      (if st.flag then ikcpParseFastack st.kcp st.maxack else st.kcp) =
        { st.kcp with sndBuf := buf } ∧
      List.Forall₂ (fun seg seg' => ∃ fastack, seg' = seg.skipped fastack) st.kcp.sndBuf buf := by
    split
    · exact ikcpParseFastack_spec st.kcp st.maxack
    · exact ⟨_, rfl, List.forall₂_same.mpr fun seg _ => ⟨seg.fastack, rfl⟩⟩
  unfold inputEnd
  rw [hfast]
  dsimp only
  split
  · obtain ⟨cwnd, incr, hgrow⟩ := growCwnd_spec { st.kcp with sndBuf := buf }
    exact ⟨buf, cwnd, incr, hgrow, hbuf⟩
  · exact ⟨buf, _, _, rfl, hbuf⟩

/-- Changing segments but for their numbers. -/
theorem Outbound.rewrite {P' : ℕ → Ikcpseg → Prop} (h : Outbound P una nxt s) {buf : List Ikcpseg}
    (hbuf : List.Forall₂ (fun seg seg' => Ikcpseg.sn seg' = Ikcpseg.sn seg ∧
      ∀ i, P i seg → P' i seg') s.sndBuf buf) : Outbound P' una nxt { s with sndBuf := buf } where
  sndUna := h.sndUna
  sndNxt := h.sndNxt
  window := h.window.forall₂ hbuf
  le := h.le
  flight := h.flight
  nsndBuf := h.nsndBuf.trans (congrArg _ hbuf.length_eq)
  nsndQue := h.nsndQue
  rmtWnd := h.rmtWnd
  oldest := by
    refine h.oldest.imp ?_ ?_
    · rintro ⟨hnil, heq⟩
      rw [hnil] at hbuf
      cases hbuf
      exact ⟨rfl, heq⟩
    · rintro ⟨seg, rest, hcons, hsn⟩
      rw [hcons] at hbuf
      cases hbuf with
      | cons hab hrest => exact ⟨_, _, rfl, hab.1.trans hsn⟩

theorem Outbound.inputEnd {st : InputState} (hst : Outbound P una nxt st.kcp.outgoing)
    (prevUna : IUINT32) (hP : ∀ i seg fastack, P i seg → P i (Ikcpseg.skipped seg fastack)) :
    Outbound P una nxt (inputEnd prevUna st).outgoing := by
  obtain ⟨buf, cwnd, incr, heq, hbuf⟩ := inputEnd_spec prevUna st
  rw [heq]
  refine hst.rewrite (hbuf.imp ?_)
  rintro seg seg' ⟨fastack, rfl⟩
  exact ⟨rfl, fun i => hP i seg fastack⟩

/-! ## A flush -/

theorem flushCwnd_le (kcp : Ikcpcb) : flushCwnd kcp ≤ kcp.rmtWnd := by
  unfold flushCwnd
  dsimp only
  split
  · exact BitVec.le_trans (imin_le_right _ _) (imin_le_right _ _)
  · exact imin_le_right _ _

/-- What sending a segment does not change. -/
theorem due_frame (kcp : Ikcpcb) (wnd resent rtomin : IUINT32) (seg : Ikcpseg) :
    ((due kcp wnd resent rtomin seg).getD seg).sn = seg.sn ∧
      ((due kcp wnd resent rtomin seg).getD seg).conv = seg.conv ∧
      ((due kcp wnd resent rtomin seg).getD seg).cmd = seg.cmd ∧
      ((due kcp wnd resent rtomin seg).getD seg).frg = seg.frg ∧
      ((due kcp wnd resent rtomin seg).getD seg).data = seg.data := by
  unfold due
  cases needsend kcp resent seg with
  | none => exact ⟨rfl, rfl, rfl, rfl, rfl⟩
  | some cause => cases cause <;> exact ⟨rfl, rfl, rfl, rfl, rfl⟩

/-- Segments may be said to be something else. -/
theorem Outbound.imp {P' : ℕ → Ikcpseg → Prop} (h : Outbound P una nxt s)
    (hP : ∀ i seg, una ≤ i → i < nxt → P i seg → P' i seg) : Outbound P' una nxt s :=
  { h with window := h.window.mono le_rfl le_rfl h.window.short hP }

/-- The serial numbers that a flush gives. -/
theorem Outbound.number (h : Outbound P una nxt kcp.outgoing) (k : ℕ) :
    kcp.sndNxt + BitVec.ofNat 32 k = BitVec.ofNat 32 (nxt + k) := by
  rw [show kcp.sndNxt = BitVec.ofNat 32 nxt from h.sndNxt, BitVec.ofNat_add]

/-- The loop that numbers segments stops at the window. -/
theorem Outbound.room (h : Outbound P una nxt kcp.outgoing) {n : ℕ}
    (hbelow : ∀ k < n, itimediff (kcp.sndNxt + BitVec.ofNat 32 k) (kcp.sndUna + flushCwnd kcp) < 0) :
    nxt + n ≤ una + max (nxt - una) kcp.rmtWnd.toNat := by
  have hle := h.le
  have hflight := h.flight
  have hrmt : kcp.rmtWnd.toNat ≤ 65535 := h.rmtWnd
  have hcwnd : (flushCwnd kcp).toNat ≤ kcp.rmtWnd.toNat := flushCwnd_le kcp
  have hend : kcp.sndUna + flushCwnd kcp = BitVec.ofNat 32 (una + (flushCwnd kcp).toNat) := by
    rw [show kcp.sndUna = BitVec.ofNat 32 una from h.sndUna, BitVec.ofNat_add, BitVec.ofNat_toNat,
      BitVec.setWidth_eq]
  induction n with
  | zero => omega
  | succ m ih =>
    have hm := ih fun k hk => hbelow k (Nat.lt_succ_of_lt hk)
    have hlt := hbelow m (Nat.lt_succ_self m)
    rw [h.number, hend, itimediff, Serial.diff_neg_iff (by constructor <;> omega)] at hlt
    omega

/-- The segments of `snd_queue` with their numbers, as far as `n`. -/
theorem Outbound.numbered_get (h : Outbound P una nxt kcp.outgoing) {n k : ℕ} {seg : Ikcpseg}
    (hk : ((kcp.sndQueue.take n).mapIdx (numberedSeg kcp (ikcpWndUnused kcp)))[k]? = some seg) :
    (kcp.sndQueue.mapIdx (numberedSeg kcp (ikcpWndUnused kcp)))[k]? = some seg ∧
      seg.sn = BitVec.ofNat 32 (nxt + k) := by
  rw [List.getElem?_mapIdx, List.getElem?_take] at hk
  rw [List.getElem?_mapIdx]
  split at hk
  · obtain ⟨newseg, hnewseg, rfl⟩ := Option.map_eq_some_iff.mp hk
    rw [hnewseg]
    exact ⟨rfl, h.number k⟩
  · simp at hk

/-- **`snd_buf` with the numbered segments behind it.** -/
theorem Outbound.numbered (h : Outbound P una nxt kcp.outgoing) {n : ℕ}
    (hn : n ≤ kcp.sndQueue.length) (hroom : nxt + n ≤ una + max (nxt - una) kcp.rmtWnd.toNat)
    (hnew : Stretch P nxt (kcp.sndQueue.mapIdx (numberedSeg kcp (ikcpWndUnused kcp)))) :
    Outbound P una (nxt + n)
      { kcp.outgoing with
        sndNxt := kcp.sndNxt + BitVec.ofNat 32 n
        sndBuf := flushBuf kcp n
        sndQueue := kcp.sndQueue.drop n
        nsndBuf := kcp.nsndBuf + BitVec.ofNat 32 n
        nsndQue := kcp.nsndQue - BitVec.ofNat 32 n } := by
  have hle := h.le
  have hflight := h.flight
  have hrmt : kcp.rmtWnd.toNat ≤ 65535 := h.rmtWnd
  have hlen : ((kcp.sndQueue.take n).mapIdx (numberedSeg kcp (ikcpWndUnused kcp))).length = n := by
    rw [List.length_mapIdx, List.length_take_of_le hn]
  have hwindow := h.window.append ((kcp.sndQueue.take n).mapIdx
    (numberedSeg kcp (ikcpWndUnused kcp))) h.le (by rw [hlen]; omega)
    (fun k seg hk => (h.numbered_get hk).2) (fun k seg hk => hnew k seg (h.numbered_get hk).1)
  rw [hlen] at hwindow
  refine ⟨h.sndUna, h.number n, hwindow, by omega, by omega, ?_, ?_, h.rmtWnd, ?_⟩
  · show kcp.nsndBuf + BitVec.ofNat 32 n = BitVec.ofNat 32 (kcp.sndBuf ++ _).length
    rw [show kcp.nsndBuf = BitVec.ofNat 32 kcp.sndBuf.length from h.nsndBuf, List.length_append,
      hlen, BitVec.ofNat_add]
  · show kcp.nsndQue - BitVec.ofNat 32 n = BitVec.ofNat 32 (kcp.sndQueue.drop n).length
    rw [show kcp.nsndQue = BitVec.ofNat 32 kcp.sndQueue.length from h.nsndQue, List.length_drop,
      Serial.ofNat_sub_ofNat hn]
  · show (flushBuf kcp n = [] ∧ _) ∨ ∃ seg rest, flushBuf kcp n = seg :: rest ∧ _
    unfold flushBuf
    rcases h.oldest with ⟨hnil, hun⟩ | ⟨seg, rest, hcons, hsn⟩
    · rw [show kcp.sndBuf = [] from hnil, List.nil_append]
      cases hnumbered : (kcp.sndQueue.take n).mapIdx (numberedSeg kcp (ikcpWndUnused kcp)) with
      | nil =>
        rw [hnumbered, List.length_nil] at hlen
        exact .inl ⟨rfl, by omega⟩
      | cons seg rest =>
        refine .inr ⟨seg, rest, rfl, ?_⟩
        have hhead := (h.numbered_get (n := n) (k := 0) (by rw [hnumbered]; rfl)).2
        rwa [Nat.add_zero, ← hun] at hhead
    · rw [show kcp.sndBuf = seg :: rest from hcons]
      exact .inr ⟨seg, _, rfl, hsn⟩

/-- The numbers that were in `snd_buf`, and those that are given, are in it. -/
theorem Outbound.exists_flushBuf (h : Outbound P una nxt kcp.outgoing) {n : ℕ}
    (hn : n ≤ kcp.sndQueue.length) {i : ℕ} (hi : i < nxt + n)
    (hold : nxt ≤ i ∨ ∃ seg ∈ kcp.sndBuf, seg.sn = BitVec.ofNat 32 i) :
    ∃ seg ∈ flushBuf kcp n, seg.sn = BitVec.ofNat 32 i := by
  rcases hold with hge | ⟨seg, hseg, hsn⟩
  swap
  · exact ⟨seg, List.mem_append_left _ hseg, hsn⟩
  have hlt : i - nxt < (kcp.sndQueue.take n).length := by
    rw [List.length_take_of_le hn]
    omega
  refine ⟨numberedSeg kcp (ikcpWndUnused kcp) (i - nxt) (kcp.sndQueue.take n)[i - nxt],
    List.mem_append_right _ (List.mem_of_getElem? (i := i - nxt) ?_), ?_⟩
  · rw [List.getElem?_mapIdx, List.getElem?_eq_getElem hlt]
    rfl
  · show kcp.sndNxt + BitVec.ofNat 32 (i - nxt) = _
    rw [h.number, Nat.add_sub_of_le hge]

/-- **A flush** numbers segments of `snd_queue` within the peer's window. -/
theorem Outbound.flush (h : Outbound P una nxt kcp.outgoing) (hupdated : kcp.updated ≠ 0)
    (hnew : Stretch P nxt (kcp.sndQueue.mapIdx (numberedSeg kcp (ikcpWndUnused kcp))))
    (hdue : ∀ i seg, P i seg → P i ((flushDue kcp seg).getD seg)) :
    ∃ n, n ≤ kcp.sndQueue.length ∧ nxt + n ≤ una + max (nxt - una) kcp.rmtWnd.toNat ∧
      Outbound P una (nxt + n) (ikcpFlush kcp).1.outgoing ∧
      (ikcpFlush kcp).1.sndQueue = kcp.sndQueue.drop n ∧
      ∀ i < nxt + n, nxt ≤ i ∨ (∃ seg ∈ kcp.sndBuf, seg.sn = BitVec.ofNat 32 i) →
        ∃ seg ∈ (ikcpFlush kcp).1.sndBuf, seg.sn = BitVec.ofNat 32 i := by
  obtain ⟨n, probes, _, _, _, _, _, _, _, hn, hbelow, -, -, -, heq⟩ := ikcpFlush_spec hupdated
  have hroom := h.room hbelow
  have hbuf := h.numbered hn hroom hnew
  rw [heq]
  refine ⟨n, hn, hroom, ?_, rfl, ?_⟩
  · refine hbuf.rewrite (List.forall₂_map_right_iff.mpr (List.forall₂_same.mpr ?_))
    intro seg _
    exact ⟨(due_frame _ _ _ _ seg).1, fun i => hdue i seg⟩
  · intro i hi hold
    obtain ⟨seg, hseg, hsn⟩ := h.exists_flushBuf hn hi hold
    exact ⟨_, List.mem_map.mpr ⟨seg, hseg, rfl⟩, (due_frame _ _ _ _ seg).1.trans hsn⟩

end Kcp
end UnixNetwork
