import UnixNetwork.Kcp.Steps
import UnixNetwork.Arq.Window

/-!
# The receiving half

What arrives in any order becomes consecutive: `rcv_buf` holds what arrived ahead of
its turn, `rcv_queue` what is next for the application, and `rcv_nxt` stands between
the two.

`Inbound` is the invariant, for an index `r` that `rcv_nxt` is the serial number of:
`rcv_buf` is a window from `r` on, and the counters count.  `limit` bounds the receive
window, and what the segment with an index is, is left open (`P`).

`Advance` is what every function may do to the half: move consecutive segments, from
index `r` on, to the end of `rcv_queue`, and let nothing go that was held.
`Inbound.parseData` says so of an arrival, for which `P` has to hold only of the index
that the receiver will take its number for.
-/

namespace UnixNetwork
namespace Kcp

open Serial (Window Stretch)

/-- The fields of the receiving half. -/
structure Incoming where
  rcvNxt : IUINT32
  rcvWnd : IUINT32
  rcvBuf : List Ikcpseg
  rcvQueue : List Ikcpseg
  nrcvBuf : IUINT32
  nrcvQue : IUINT32

def Ikcpcb.incoming (kcp : Ikcpcb) : Incoming where
  rcvNxt := kcp.rcvNxt
  rcvWnd := kcp.rcvWnd
  rcvBuf := kcp.rcvBuf
  rcvQueue := kcp.rcvQueue
  nrcvBuf := kcp.nrcvBuf
  nrcvQue := kcp.nrcvQue

/-- **The invariant of the receiving half.** -/
structure Inbound (P : ℕ → Ikcpseg → Prop) (limit r : ℕ) (s : Incoming) : Prop where
  short : limit < 2 ^ 31
  rcvNxt : s.rcvNxt = BitVec.ofNat 32 r
  window : Window Ikcpseg.sn P r (r + limit) s.rcvBuf
  nrcvBuf : s.nrcvBuf = BitVec.ofNat 32 s.rcvBuf.length
  nrcvQue : s.nrcvQue = BitVec.ofNat 32 s.rcvQueue.length
  least : 128 ≤ s.rcvWnd.toNat
  most : s.rcvWnd.toNat ≤ limit
  stored : s.rcvQueue.length ≤ limit

/-- What is next in order has been moved, unless `rcv_queue` is full. -/
def Settled (s : Incoming) : Prop :=
  ∀ seg rest, s.rcvBuf = seg :: rest → seg.sn ≠ s.rcvNxt ∨ 128 ≤ s.nrcvQue.toNat

/-- The segment of an index has arrived. -/
def Held (limit r : ℕ) (s : Incoming) (i : ℕ) : Prop :=
  i < r ∨ i < r + limit ∧ ∃ seg ∈ s.rcvBuf, seg.sn = BitVec.ofNat 32 i

theorem Held.lt {limit r i : ℕ} {s : Incoming} (h : Held limit r s i) : i < r + limit :=
  h.elim (fun hlt => hlt.trans_le (Nat.le_add_right r limit)) And.left

/-- What the functions may do to the receiving half. -/
structure Advance (P : ℕ → Ikcpseg → Prop) (limit r : ℕ) (s s' : Incoming)
    (moved : List Ikcpseg) : Prop where
  queue : s'.rcvQueue = s.rcvQueue ++ moved
  inbound : Inbound P limit (r + moved.length) s'
  stretch : Stretch P r moved
  settled : Settled s → Settled s'
  held : ∀ i, Held limit r s i → Held limit (r + moved.length) s' i

variable {P : ℕ → Ikcpseg → Prop} {limit r : ℕ} {s s' : Incoming} {kcp : Ikcpcb}

theorem Advance.refl (h : Inbound P limit r s) : Advance P limit r s s [] where
  queue := (List.append_nil _).symm
  inbound := h
  stretch := Stretch.nil
  settled := id
  held := fun _ => id

theorem inbound_ikcpCreate (P : ℕ → Ikcpseg → Prop) (conv : IUINT32) (hge : 128 ≤ limit)
    (hlt : limit < 2 ^ 31) : Inbound P limit 0 (ikcpCreate conv).incoming where
  short := hlt
  rcvNxt := rfl
  window := Window.nil (by omega)
  nrcvBuf := rfl
  nrcvQue := rfl
  least := show 128 ≤ wndRcv.toNat by decide
  most := show 128 ≤ limit from hge
  stored := Nat.zero_le _

/-- The counters do not run over: the queues are no longer than the window. -/
theorem Inbound.toNat_nrcvQue (h : Inbound P limit r s) : s.nrcvQue.toNat = s.rcvQueue.length := by
  have hshort := h.short
  have hstored := h.stored
  rw [h.nrcvQue]
  exact Serial.toNat_ofNat_of_lt (by omega)

theorem Inbound.toNat_nrcvBuf (h : Inbound P limit r s) : s.nrcvBuf.toNat = s.rcvBuf.length := by
  have hshort := h.short
  have hlength : s.rcvBuf.length ≤ r + limit - r := h.window.length_le (Nat.le_add_right r limit)
  rw [h.nrcvBuf]
  exact Serial.toNat_ofNat_of_lt (by omega)

/-- Two indices that the window can hold are near. -/
theorem Inbound.near (h : Inbound P limit r s) {i j : ℕ} (hi₁ : r ≤ i) (hi₂ : i < r + limit)
    (hj₁ : r ≤ j) (hj₂ : j < r + limit) : Serial.Near 32 i j :=
  h.window.near hi₁ hi₂ hj₁ hj₂

/-- What is next in order is not held when there is room for it. -/
theorem Inbound.not_held (h : Inbound P limit r s) (hset : Settled s) (hroom : s.nrcvQue.toNat < 128) :
    ¬ Held limit r s r := by
  rintro (hlt | ⟨hlt, seg, hseg, hsn⟩)
  · exact absurd hlt (Nat.lt_irrefl r)
  obtain ⟨first, rest, hbuf⟩ := List.exists_cons_of_ne_nil (List.ne_nil_of_mem hseg)
  have hfirst : first.sn ≠ s.rcvNxt := (hset first rest hbuf).resolve_right (Nat.not_le.mpr hroom)
  have hwindow := h.window
  rw [hbuf] at hseg hwindow
  rcases List.mem_cons.mp hseg with rfl | hrest
  · exact hfirst (hsn.trans h.rcvNxt.symm)
  · obtain ⟨k, hk₁, hk₂, hkey, -⟩ := hwindow.index first List.mem_cons_self
    have hpos := List.rel_of_pairwise_cons hwindow.sorted hrest
    rw [hsn, hkey, Serial.diff_pos_iff (h.near le_rfl hlt hk₁ hk₂)] at hpos
    exact absurd hpos (Nat.not_lt.mpr hk₁)

/-! ## Moving what is next in order -/

/-- What the loop moves is consecutive, and it stops where the window has a gap or `rcv_queue` is
full. -/
theorem Inbound.moveAvailable (h : Inbound P limit r kcp.incoming) :
    ∃ moved, Advance P limit r kcp.incoming (moveAvailable kcp).incoming moved ∧
      Settled (Kcp.moveAvailable kcp).incoming := by
  obtain ⟨n, hn, heq, hsn, hroom, hstop⟩ := moveLoop_spec kcp kcp.rcvBuf
  have hnxt : kcp.rcvNxt = BitVec.ofNat 32 r := h.rcvNxt
  have hadd (k : ℕ) : kcp.rcvNxt + BitVec.ofNat 32 k = BitVec.ofNat 32 (r + k) := by
    rw [hnxt, BitVec.ofNat_add]
  have hlen : (kcp.rcvBuf.take n).length = n := List.length_take_of_le hn
  have hcounted : (kcp.nrcvQue + BitVec.ofNat 32 n).toNat = kcp.nrcvQue.toNat + n := by
    rcases Nat.eq_zero_or_pos n with rfl | hpos
    · exact congrArg BitVec.toNat (BitVec.add_zero kcp.nrcvQue)
    · have hlt := kcp.rcvWnd.isLt
      have hle := hroom hpos
      rw [BitVec.toNat_add, Serial.toNat_ofNat_of_lt (by omega)]
      exact Nat.mod_eq_of_lt (by omega)
  obtain ⟨hwindow, hstretch⟩ := h.window.drop hn fun k seg hk => (hsn k seg hk).trans (hadd k)
  have hshort := h.short
  have hsettled : Settled (Kcp.moveAvailable kcp).incoming := by
    intro seg rest hbuf
    unfold Kcp.moveAvailable at hbuf ⊢
    rw [heq] at hbuf ⊢
    exact (hstop seg rest hbuf).imp_right fun hfull => h.least.trans (hfull.trans hcounted.ge)
  refine ⟨kcp.rcvBuf.take n, ⟨?_, ?_, hstretch, fun _ => hsettled, ?_⟩, hsettled⟩
  · rw [Kcp.moveAvailable, heq]
    rfl
  · rw [Kcp.moveAvailable, heq, hlen]
    refine ⟨h.short, hadd n, ?_, ?_, ?_, h.least, h.most, ?_⟩
    · exact hwindow.mono le_rfl (by omega) (by omega) fun _ _ _ _ => id
    · show kcp.nrcvBuf - BitVec.ofNat 32 n = BitVec.ofNat 32 (kcp.rcvBuf.drop n).length
      have hcount : kcp.nrcvBuf = BitVec.ofNat 32 kcp.rcvBuf.length := h.nrcvBuf
      rw [hcount, List.length_drop, Serial.ofNat_sub_ofNat hn]
    · show kcp.nrcvQue + BitVec.ofNat 32 n = BitVec.ofNat 32 (kcp.rcvQueue ++ kcp.rcvBuf.take n).length
      have hcount : kcp.nrcvQue = BitVec.ofNat 32 kcp.rcvQueue.length := h.nrcvQue
      rw [hcount, List.length_append, hlen, BitVec.ofNat_add]
    · show (kcp.rcvQueue ++ kcp.rcvBuf.take n).length ≤ limit
      have hstored : kcp.rcvQueue.length ≤ limit := h.stored
      have hcount : kcp.nrcvQue.toNat = kcp.rcvQueue.length := h.toNat_nrcvQue
      have hmost : kcp.rcvWnd.toNat ≤ limit := h.most
      rw [List.length_append, hlen]
      omega
  · intro i hheld
    rw [Kcp.moveAvailable, heq, hlen]
    rcases hheld with hlt | ⟨hlt, seg, hseg, hkey⟩
    · exact .inl (by omega)
    rcases Nat.lt_or_ge i r with hir | hri
    · exact .inl (by omega)
    -- a held segment is among those moved, or stays
    have hsplit : seg ∈ kcp.rcvBuf.take n ++ kcp.rcvBuf.drop n := by
      rwa [List.take_append_drop]
    rcases List.mem_append.mp hsplit with htaken | hstays
    · obtain ⟨k, hk⟩ := List.mem_iff_getElem?.mp htaken
      have hkn : k < n := by
        have := (List.getElem?_eq_some_iff.mp hk).1
        omega
      obtain ⟨j, hj₁, hj₂, hkeyj, -⟩ := h.window.index seg hseg
      have hij : i = j := Serial.eq_of_ofNat_eq (h.near hri hlt hj₁ hj₂) (hkey.symm.trans hkeyj)
      have hkj : r + k = j := by
        refine Serial.eq_of_ofNat_eq ?_ ((hadd k).symm.trans ((hsn k seg hk).symm.trans hkeyj))
        have hle : kcp.rcvBuf.length ≤ r + limit - r :=
          h.window.length_le (Nat.le_add_right r limit)
        exact h.near (Nat.le_add_right r k) (by omega) hj₁ hj₂
      exact .inl (by omega)
    · exact .inr ⟨by omega, seg, hstays, hkey⟩

/-! ## An arrival -/

/-- Where a newcomer is put in `rcv_buf`, if it is new. -/
theorem insertBack_window (h : Inbound P limit r kcp.incoming) {newseg : Ikcpseg} {i : ℕ}
    (hi₁ : r ≤ i) (hi₂ : i < r + limit) (hsn : newseg.sn = BitVec.ofNat 32 i) (hP : P i newseg)
    {buf : List Ikcpseg} (hbuf : insertBack newseg kcp.rcvBuf.reverse = some buf) :
    Window Ikcpseg.sn P r (r + limit) buf.reverse ∧ buf.reverse.length = kcp.rcvBuf.length + 1 ∧
      newseg ∈ buf.reverse ∧ ∀ seg ∈ kcp.rcvBuf, seg ∈ buf.reverse := by
  have hspec := insertBack_spec newseg kcp.rcvBuf.reverse
  rw [hbuf] at hspec
  obtain ⟨post, pre, hrev, rfl, hpost, hpre⟩ := hspec
  have hsplit : kcp.rcvBuf = pre.reverse ++ post.reverse := by
    rw [← List.reverse_append, ← hrev, List.reverse_reverse]
  have hnew : (post ++ newseg :: pre).reverse = pre.reverse ++ newseg :: post.reverse := by
    simp
  have hwindow : Window Ikcpseg.sn P r (r + limit) kcp.rcvBuf := h.window
  rw [hsplit] at hwindow
  rw [hnew, hsplit]
  refine ⟨hwindow.insert hi₁ hi₂ hsn hP ?_ ?_, by simp; omega, by simp, ?_⟩
  · intro seg hseg
    rw [hsn]
    cases pre with
    | nil => exact absurd hseg (by simp)
    | cons b pre =>
      have hb : 0 < itimediff newseg.sn b.sn := hpre b pre rfl
      rw [hsn] at hb
      rw [List.reverse_cons] at hseg hwindow
      rcases List.mem_append.mp hseg with hseg | hseg
      · rw [List.append_assoc, List.singleton_append] at hwindow
        exact hwindow.diff_pos_of_mem hi₁ hi₂ hb hseg
      · obtain rfl := List.mem_singleton.mp hseg
        exact hb
  · intro seg hseg
    obtain ⟨hne, hneg⟩ := hpost seg (List.mem_reverse.mp hseg)
    obtain ⟨j, hj₁, hj₂, hkey, -⟩ := hwindow.index seg (List.mem_append_right _ hseg)
    have hnear := h.near hj₁ hj₂ hi₁ hi₂
    rw [hsn, hkey] at hne
    rw [hsn, hkey, itimediff, Serial.diff_pos_iff hnear.symm] at hneg
    rw [hsn, hkey, Serial.diff_pos_iff hnear]
    have hij : j ≠ i := fun heq => hne (congrArg _ heq)
    omega
  · intro seg hseg
    rcases List.mem_append.mp hseg with hseg | hseg
    · exact List.mem_append_left _ hseg
    · exact List.mem_append_right _ (List.mem_cons_of_mem _ hseg)

/-- The index of a number that is in the receive window, by the tests of `ikcp_parse_data`. -/
theorem Inbound.exists_index (h : Inbound P limit r kcp.incoming) {sn : IUINT32}
    (hbelow : itimediff sn (kcp.rcvNxt + kcp.rcvWnd) < 0) (hfrom : 0 ≤ itimediff sn kcp.rcvNxt) :
    ∃ i, r ≤ i ∧ i < r + kcp.rcvWnd.toNat ∧ sn = BitVec.ofNat 32 i := by
  have hnxt : kcp.rcvNxt = BitVec.ofNat 32 r := h.rcvNxt
  have hshort := h.short
  have hmost : kcp.rcvWnd.toNat ≤ limit := h.most
  rw [hnxt] at hfrom
  obtain ⟨i, hi₁, hi₂, rfl⟩ := Serial.exists_index_of_nonneg hfrom
  have hwnd : kcp.rcvNxt + kcp.rcvWnd = BitVec.ofNat 32 (r + kcp.rcvWnd.toNat) := by
    rw [hnxt, BitVec.ofNat_add, BitVec.ofNat_toNat, BitVec.setWidth_eq]
  rw [hwnd, itimediff, Serial.diff_neg_iff (by constructor <;> omega)] at hbelow
  exact ⟨i, hi₁, hbelow, rfl⟩

/-- **An arrival**: consecutive segments are moved, nothing that was held is let go, and a
number in the window is held from then on. -/
theorem Inbound.parseData (h : Inbound P limit r kcp.incoming) (newseg : Ikcpseg)
    (hP : ∀ i, r ≤ i → i < r + kcp.rcvWnd.toNat → newseg.sn = BitVec.ofNat 32 i → P i newseg) :
    ∃ moved, Advance P limit r kcp.incoming (ikcpParseData kcp newseg).incoming moved ∧
      ∀ i, r ≤ i → i < r + kcp.rcvWnd.toNat → newseg.sn = BitVec.ofNat 32 i →
        Held limit (r + moved.length) (ikcpParseData kcp newseg).incoming i := by
  have hnxt : kcp.rcvNxt = BitVec.ofNat 32 r := h.rcvNxt
  have hshort := h.short
  have hmost : kcp.rcvWnd.toNat ≤ limit := h.most
  unfold ikcpParseData
  split
  · rename_i hout
    refine ⟨[], Advance.refl h, fun i hi₁ hi₂ hsn => ?_⟩
    -- a number in the window passes both tests
    have hwnd : kcp.rcvNxt + kcp.rcvWnd = BitVec.ofNat 32 (r + kcp.rcvWnd.toNat) := by
      rw [hnxt, BitVec.ofNat_add, BitVec.ofNat_toNat, BitVec.setWidth_eq]
    rw [hwnd, hnxt, hsn, itimediff, itimediff,
      Serial.diff_nonneg_iff (by constructor <;> omega),
      Serial.diff_neg_iff (by constructor <;> omega)] at hout
    omega
  · rename_i hin
    rw [not_or, not_le, not_lt] at hin
    obtain ⟨i, hi₁, hi₂, hsn⟩ := h.exists_index hin.1 hin.2
    have hilim : i < r + limit := by omega
    have hunique {j : ℕ} (hj₁ : r ≤ j) (hj₂ : j < r + kcp.rcvWnd.toNat)
        (hsnj : newseg.sn = BitVec.ofNat 32 j) : j = i :=
      Serial.eq_of_ofNat_eq (h.near hj₁ (by omega) hi₁ hilim) (hsnj.symm.trans hsn)
    cases hins : insertBack newseg kcp.rcvBuf.reverse with
    | none =>
      dsimp only
      obtain ⟨moved, hadv, hset⟩ := h.moveAvailable
      refine ⟨moved, hadv, fun j hj₁ hj₂ hsnj => ?_⟩
      obtain rfl := hunique hj₁ hj₂ hsnj
      have hspec := insertBack_spec newseg kcp.rcvBuf.reverse
      rw [hins] at hspec
      obtain ⟨seg, hseg, hsnseg⟩ := hspec
      exact hadv.held j (.inr ⟨hilim, seg, List.mem_reverse.mp hseg, hsnseg.trans hsn⟩)
    | some buf =>
      dsimp only
      obtain ⟨hwindow, hlen, hmem, hsub⟩ := insertBack_window h hi₁ hilim hsn (hP i hi₁ hi₂ hsn) hins
      have hinbound : Inbound P limit r
          { kcp with rcvBuf := buf.reverse, nrcvBuf := kcp.nrcvBuf + 1 }.incoming :=
        { h with
          window := hwindow
          nrcvBuf := by
            have hcount : kcp.nrcvBuf = BitVec.ofNat 32 kcp.rcvBuf.length := h.nrcvBuf
            show kcp.nrcvBuf + 1 = BitVec.ofNat 32 buf.reverse.length
            rw [hlen, hcount, Serial.ofNat_succ] }
      obtain ⟨moved, hadv, hset⟩ := hinbound.moveAvailable
      refine ⟨moved, ⟨hadv.queue, hadv.inbound, hadv.stretch, fun _ => hset, ?_⟩, ?_⟩
      · intro j hj
        refine hadv.held j (hj.imp_right ?_)
        rintro ⟨hlt, seg, hseg, hkey⟩
        exact ⟨hlt, seg, hsub seg hseg, hkey⟩
      · intro j hj₁ hj₂ hsnj
        exact hadv.held j (.inr ⟨by omega, newseg, hmem, hsnj⟩)

/-! ## The application takes a message -/

theorem takeMessage_append (segs : List Ikcpseg) :
    (takeMessage segs).1 ++ (takeMessage segs).2 = segs := by
  rw [takeMessage_eq_front]
  exact Framing.front_append segs

theorem length_left_le (segs : List Ikcpseg) (len : ℤ) :
    (if len < 0 then segs else (takeMessage segs).2).length ≤ segs.length := by
  split
  · exact le_rfl
  · have hsplit := congrArg List.length (takeMessage_append segs)
    rw [List.length_append] at hsplit
    omega

/-- When there is a message to take, the queue holds as many segments as its first announces. -/
theorem left_lt_of_peeksize {seg : Ikcpseg} {rest : List Ikcpseg}
    (hqueue : kcp.rcvQueue = seg :: rest) (hcount : kcp.nrcvQue.toNat = kcp.rcvQueue.length)
    (hleft : seg.left < 256) :
    0 ≤ ikcpPeeksize kcp ↔ seg.left < (seg :: rest).length := by
  unfold ikcpPeeksize
  rw [hqueue]
  dsimp only
  split
  · rename_i hzero
    rw [frg_eq_zero_iff] at hzero
    exact iff_of_true (Int.natCast_nonneg _) (by rw [hzero]; exact Nat.succ_pos _)
  have hsucc : (seg.frg + 1).toNat = seg.left + 1 := by
    rw [BitVec.toNat_add, Ikcpseg.left]
    unfold Ikcpseg.left at hleft
    exact Nat.mod_eq_of_lt (show _ + 1 < 2 ^ 32 by omega)
  have hlt : kcp.nrcvQue < seg.frg + 1 ↔ (seg :: rest).length < seg.left + 1 := by
    rw [BitVec.lt_def, hcount, hqueue, hsucc]
  split
  · rename_i hshort
    exact iff_of_false (by decide) (by have := hlt.mp hshort; omega)
  · rename_i hlong
    exact iff_of_true (Int.natCast_nonneg _) (by have := mt hlt.mpr hlong; omega)

/-- **What `ikcp_recv` does**: nothing, with an error, or it hands out the message at the front of
`rcv_queue`, takes it off unless it only looks, and moves what is next in order. -/
theorem Inbound.recv (h : Inbound P limit r kcp.incoming) (len : ℤ) :
    (∃ code, ikcpRecv kcp len = (kcp, .error code)) ∨
      ∃ left moved, left = (if len < 0 then kcp.rcvQueue else (takeMessage kcp.rcvQueue).2) ∧
        kcp.rcvQueue ≠ [] ∧ 0 ≤ ikcpPeeksize kcp ∧
        (ikcpRecv kcp len).2 = .ok (bytesOf (takeMessage kcp.rcvQueue).1) ∧
        Advance P limit r
          { kcp.incoming with rcvQueue := left, nrcvQue := BitVec.ofNat 32 left.length }
          (ikcpRecv kcp len).1.incoming moved ∧
        Settled (ikcpRecv kcp len).1.incoming := by
  unfold ikcpRecv
  split
  · exact .inl ⟨_, rfl⟩
  rename_i hne
  dsimp only
  split
  · exact .inl ⟨_, rfl⟩
  rename_i hpeek
  split
  · exact .inl ⟨_, rfl⟩
  refine .inr ?_
  have hcount : kcp.nrcvQue = BitVec.ofNat 32 kcp.rcvQueue.length := h.nrcvQue
  obtain ⟨kcp', hkcp'⟩ : ∃ kcp' : Ikcpcb, (if len < 0 then kcp else
      { kcp with
        rcvQueue := (takeMessage kcp.rcvQueue).2
        nrcvQue := kcp.nrcvQue - BitVec.ofNat 32 (takeMessage kcp.rcvQueue).1.length }) = kcp' :=
    ⟨_, rfl⟩
  -- the queue without the message
  have hincoming : kcp'.incoming = { kcp.incoming with
      rcvQueue := if len < 0 then kcp.rcvQueue else (takeMessage kcp.rcvQueue).2
      nrcvQue := BitVec.ofNat 32
        (if len < 0 then kcp.rcvQueue else (takeMessage kcp.rcvQueue).2).length } := by
    rw [← hkcp']
    split
    · rw [← hcount]
      rfl
    · have hsplit := congrArg List.length (takeMessage_append kcp.rcvQueue)
      rw [List.length_append] at hsplit
      rw [hcount, Serial.ofNat_sub_ofNat (by omega),
        show kcp.rcvQueue.length - (takeMessage kcp.rcvQueue).1.length =
          (takeMessage kcp.rcvQueue).2.length by omega]
      rfl
  have hinb : Inbound P limit r kcp'.incoming := by
    rw [hincoming]
    exact { h with nrcvQue := rfl, stored := (length_left_le kcp.rcvQueue len).trans h.stored }
  obtain ⟨moved, hadv, hset⟩ := hinb.moveAvailable
  rw [hkcp']
  rw [hincoming] at hadv
  have hprobe (c : Prop) [Decidable c] (k : Ikcpcb) :
      (if c then { k with probe := k.probe ||| askTell } else k).incoming = k.incoming := by
    split
    · rfl
    · rfl
  refine ⟨_, moved, rfl, hne, not_lt.mp hpeek, rfl, ?_⟩
  dsimp only
  rw [hprobe]
  exact ⟨hadv, hset⟩

end Kcp
end UnixNetwork
