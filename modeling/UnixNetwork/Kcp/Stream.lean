import UnixNetwork.Kcp.Way

/-!
# Messages and bytes

What one application sends and the other has not yet taken is a stream of pieces: the
segments in `rcv_queue`, then what has been numbered and not moved there, then what
waits in `snd_queue` (`inTransit`).  Nothing of the protocol in between changes it.
`ikcp_send` appends to it and `ikcp_recv` takes its front, and `Conveyed` is what they
agree on: the pieces are framed by groups that count down, and what has been received
and what the pieces carry make up what has been sent, byte for byte.

In message mode the groups are the messages.  In stream mode `ikcp_send` may put the
beginning of a buffer into the last segment of the queue, and what `ikcp_recv` returns
is cut elsewhere.  There `ikcp_send` can also queue that beginning and then refuse the
rest (`accepted`).
-/

namespace UnixNetwork
namespace Kcp

open Framing (Framed)

/-- A segment as `ikcp_send` queues it, that a header has room for. -/
structure Plain (q : Ikcpseg) : Prop where
  bare : q.bare = q
  left : q.left < 256
  len : q.data.length < 2 ^ 31

/-- The pieces that the application at the other end has not taken. -/
def inTransit (hist : List Ikcpseg) (r : ℕ) (rcvQueue sndQueue : List Ikcpseg) : List Ikcpseg :=
  rcvQueue.map Ikcpseg.bare ++ (hist.drop r ++ sndQueue)

/-- What has been received and what is in transit make up what has been sent. -/
structure Conveyed (sent received : List (List UInt8)) (groups : List (List Ikcpseg))
    (pieces : List Ikcpseg) : Prop where
  framed : Framed Ikcpseg.left groups pieces
  size : ∀ g ∈ groups, g.length < 128
  bytes : received.flatten ++ bytesOf pieces = sent.flatten

/-! ## Sending -/

/-- The part of a buffer that `ikcp_send` queues. -/
def accepted (kcp : Ikcpcb) (buffer : List UInt8) : List UInt8 :=
  buffer.take ((bytesOf (ikcpSend kcp buffer).1.sndQueue).length - (bytesOf kcp.sndQueue).length)

/-- What has been sent after a call of `ikcp_send`. -/
def sentAfter (kcp : Ikcpcb) (buffer : List UInt8) (sent : List (List UInt8)) :
    List (List UInt8) :=
  if (ikcpSend kcp buffer).2 = 0 ∨ accepted kcp buffer ≠ [] then sent ++ [accepted kcp buffer]
  else sent

/-- The last segment filled up: it takes the front of the buffer. -/
theorem topUp_spec (kcp : Ikcpcb) (buffer : List UInt8) :
    topUp kcp buffer = (kcp, buffer) ∨
      ∃ init old taken rest, kcp.sndQueue = init ++ [old] ∧ taken ++ rest = buffer ∧
        (old.data ++ taken).length ≤ kcp.mss.toNat ∧
        topUp kcp buffer =
          ({ kcp with sndQueue := init ++ [{ data := old.data ++ taken }] }, rest) := by
  unfold topUp
  rcases List.eq_nil_or_concat kcp.sndQueue with hnil | ⟨init, old, hconcat⟩
  · rw [hnil]
    exact .inl rfl
  rw [List.concat_eq_append] at hconcat
  rw [hconcat, List.getLast?_concat, List.dropLast_concat]
  dsimp only
  split
  swap
  · exact .inl rfl
  rename_i hroom
  refine .inr ⟨init, old, _, _, rfl, List.take_append_drop _ buffer, ?_, rfl⟩
  rw [List.length_append, List.length_take]
  split <;> omega

/-- Cutting a buffer into segments and queueing these: all of it or none. -/
theorem queueFragments_spec (kcp : Ikcpcb) (buffer : List UInt8) (hmss : 0 < kcp.mss.toNat) :
    (queueFragments kcp buffer = (kcp, -2)) ∨
      ∃ count, 0 < count ∧ count < 128 ∧
        bytesOf (fragments kcp.stream kcp.mss.toNat count buffer) = buffer ∧
        queueFragments kcp buffer =
          ({ kcp with
              sndQueue := kcp.sndQueue ++ fragments kcp.stream kcp.mss.toNat count buffer
              nsndQue := kcp.nsndQue + BitVec.ofNat 32 count }, 0) := by
  have hpos := fragmentCount_pos hmss buffer.length
  unfold queueFragments
  dsimp only
  split
  · exact .inl rfl
  · rename_i hcount
    rw [if_neg (Nat.ne_of_gt hpos)]
    exact .inr ⟨_, hpos, not_le.mp hcount,
      bytesOf_fragments kcp.stream _ (length_le_fragmentCount hmss buffer.length), rfl⟩

theorem plain_fragments {stream : ℤ} {mss count : ℕ} {buffer : List UInt8} (hmss : mss < 2 ^ 31)
    (hcount : count < 128) {q : Ikcpseg} (hq : q ∈ fragments stream mss count buffer) :
    Plain q := by
  have hlen := length_data_fragments hq
  suffices h : q.bare = q ∧ q.left < 256 from ⟨h.1, h.2, by omega⟩
  clear hlen
  induction count generalizing buffer with
  | zero => exact absurd hq List.not_mem_nil
  | succ left ih =>
    rcases List.mem_cons.mp hq with rfl | hq
    · refine ⟨rfl, ?_⟩
      rw [Ikcpseg.left]
      split
      · rw [BitVec.toNat_ofNat]
        exact (Nat.mod_le _ _).trans_lt (by omega)
      · exact Nat.zero_lt_succ _
    · exact ih (by omega) hq

/-- In stream mode every segment is a message. -/
theorem left_fragments {stream : ℤ} (hstream : stream ≠ 0) {mss count : ℕ} {buffer : List UInt8}
    {q : Ikcpseg} (hq : q ∈ fragments stream mss count buffer) : q.left = 0 := by
  induction count generalizing buffer with
  | zero => exact absurd hq List.not_mem_nil
  | succ left ih =>
    rcases List.mem_cons.mp hq with rfl | hq
    · rw [Ikcpseg.left, if_neg hstream]
      rfl
    · exact ih hq

/-- **The fragments of a buffer behind a stream**: one group in message mode, a group each in
stream mode. -/
theorem framed_fragments {groups : List (List Ikcpseg)} {pieces : List Ikcpseg} (stream : ℤ)
    (mss : ℕ) {count : ℕ} (buffer : List UInt8) (h : Framed Ikcpseg.left groups pieces)
    (hsize : ∀ g ∈ groups, g.length < 128) (hpos : 0 < count) (hcount : count < 128) :
    ∃ groups', Framed Ikcpseg.left groups' (pieces ++ fragments stream mss count buffer) ∧
      (∀ g ∈ groups', g.length < 128) ∧
      (stream = 0 → groups' = groups ++ [fragments stream mss count buffer]) := by
  have hlen := length_fragments stream mss count buffer
  by_cases hstream : stream = 0
  · subst hstream
    refine ⟨_, h.append (Framed.singleton ?_ (countdown_fragments mss (by omega) buffer)), ?_,
      fun _ => rfl⟩
    · intro hnil
      rw [hnil, List.length_nil] at hlen
      omega
    · intro g hg
      rcases List.mem_append.mp hg with hg | hg
      · exact hsize g hg
      · rw [List.mem_singleton.mp hg, hlen]
        exact hcount
  · refine ⟨_, h.append (Framed.singletons fun q hq => left_fragments hstream hq), ?_,
      fun h0 => absurd h0 hstream⟩
    intro g hg
    rcases List.mem_append.mp hg with hg | hg
    · exact hsize g hg
    · obtain ⟨q, -, rfl⟩ := List.mem_map.mp hg
      exact Nat.lt_of_sub_eq_succ rfl

/-- `ikcp_send` writes `snd_queue` and counts it. -/
theorem ikcpSend_frame (kcp : Ikcpcb) (buffer : List UInt8) (hmss : 0 < kcp.mss.toNat) :
    ∃ queue n, (ikcpSend kcp buffer).1 = { kcp with sndQueue := queue, nsndQue := n } ∧
      kcp.sndQueue.length ≤ queue.length ∧
      (kcp.nsndQue = BitVec.ofNat 32 kcp.sndQueue.length → n = BitVec.ofNat 32 queue.length) := by
  have hqueue (kcp : Ikcpcb) (buffer : List UInt8) (hmss : 0 < kcp.mss.toNat) :
      ∃ queue n, (queueFragments kcp buffer).1 = { kcp with sndQueue := queue, nsndQue := n } ∧
        kcp.sndQueue.length ≤ queue.length ∧
        (kcp.nsndQue = BitVec.ofNat 32 kcp.sndQueue.length → n = BitVec.ofNat 32 queue.length) := by
    rcases queueFragments_spec kcp buffer hmss with heq | ⟨count, -, -, -, heq⟩ <;> rw [heq]
    · exact ⟨_, _, rfl, le_rfl, id⟩
    · refine ⟨_, _, rfl, ?_, fun hcount => ?_⟩
      · rw [List.length_append]
        exact Nat.le_add_right _ _
      · rw [List.length_append, length_fragments, hcount, BitVec.ofNat_add]
  unfold ikcpSend
  split
  swap
  · exact hqueue kcp buffer hmss
  rcases topUp_spec kcp buffer with heq | ⟨init, old, taken, rest, hinit, -, -, heq⟩ <;> rw [heq] <;>
    dsimp only
  · split
    · exact ⟨_, _, rfl, le_rfl, id⟩
    · exact hqueue kcp buffer hmss
  · have hlen : (init ++ [({ data := old.data ++ taken } : Ikcpseg)]).length =
        kcp.sndQueue.length := by
      rw [hinit, List.length_append, List.length_append, List.length_singleton,
        List.length_singleton]
    split
    · exact ⟨_, _, rfl, hlen.ge, fun h => h.trans (congrArg _ hlen.symm)⟩
    · obtain ⟨queue, n, hframe, hle, hcount⟩ := hqueue
        { kcp with sndQueue := init ++ [{ data := old.data ++ taken }] } rest hmss
      exact ⟨queue, n, hframe, hlen.symm.le.trans hle, 
        fun h => hcount (h.trans (congrArg _ hlen.symm))⟩

/-- Queueing fragments queues all of a buffer, or nothing, and says which. -/
theorem bytesOf_queueFragments (kcp : Ikcpcb) (buffer : List UInt8) (hmss : 0 < kcp.mss.toNat) :
    ((queueFragments kcp buffer).2 = 0 ∧
        bytesOf (queueFragments kcp buffer).1.sndQueue = bytesOf kcp.sndQueue ++ buffer) ∨
      ((queueFragments kcp buffer).2 ≠ 0 ∧ (queueFragments kcp buffer).1 = kcp) := by
  rcases queueFragments_spec kcp buffer hmss with heq | ⟨count, -, -, hbytes, heq⟩ <;> rw [heq]
  · exact .inr ⟨show (-2 : ℤ) ≠ 0 by decide, rfl⟩
  · refine .inl ⟨rfl, ?_⟩
    rw [bytesOf_append, hbytes]

/-- **What a call of `ikcp_send` queues**: the beginning of the buffer, and all of it when it
returns 0. -/
theorem bytesOf_ikcpSend (kcp : Ikcpcb) (buffer : List UInt8) (hmss : 0 < kcp.mss.toNat) :
    ∃ taken rest, taken ++ rest = buffer ∧
      bytesOf (ikcpSend kcp buffer).1.sndQueue = bytesOf kcp.sndQueue ++ taken ∧
      ((ikcpSend kcp buffer).2 = 0 → rest = []) := by
  have hqueue (kcp' : Ikcpcb) (taken rest : List UInt8) (hmss' : 0 < kcp'.mss.toNat)
      (hbuffer : taken ++ rest = buffer)
      (htaken : bytesOf kcp'.sndQueue = bytesOf kcp.sndQueue ++ taken) :
      ∃ taken' rest', taken' ++ rest' = buffer ∧
        bytesOf (queueFragments kcp' rest).1.sndQueue = bytesOf kcp.sndQueue ++ taken' ∧
        ((queueFragments kcp' rest).2 = 0 → rest' = []) := by
    rcases bytesOf_queueFragments kcp' rest hmss' with ⟨-, hbytes⟩ | ⟨hcode, hsame⟩
    · refine ⟨buffer, [], List.append_nil _, ?_, fun _ => rfl⟩
      rw [hbytes, htaken, List.append_assoc, hbuffer]
    · exact ⟨taken, rest, hbuffer, by rw [hsame, htaken], fun h0 => absurd h0 hcode⟩
  unfold ikcpSend
  split
  swap
  · exact hqueue kcp [] buffer hmss rfl (List.append_nil _).symm
  rcases topUp_spec kcp buffer with heq | ⟨init, old, taken, rest, hinit, hbuffer, -, heq⟩ <;>
    rw [heq] <;> dsimp only
  · split
    · rename_i hempty
      exact ⟨[], buffer, rfl, (List.append_nil _).symm,
        fun _ => List.eq_nil_of_length_eq_zero hempty⟩
    · exact hqueue kcp [] buffer hmss rfl (List.append_nil _).symm
  · have htaken : bytesOf (init ++ [({ data := old.data ++ taken } : Ikcpseg)]) =
        bytesOf kcp.sndQueue ++ taken := by
      rw [hinit]
      simp
    split
    · rename_i hempty
      exact ⟨taken, rest, hbuffer, htaken, fun _ => List.eq_nil_of_length_eq_zero hempty⟩
    · exact hqueue { kcp with sndQueue := init ++ [{ data := old.data ++ taken }] } taken rest hmss
        hbuffer htaken

theorem bytesOf_accepted (kcp : Ikcpcb) (buffer : List UInt8) (hmss : 0 < kcp.mss.toNat) :
    bytesOf (ikcpSend kcp buffer).1.sndQueue = bytesOf kcp.sndQueue ++ accepted kcp buffer := by
  obtain ⟨taken, rest, rfl, hbytes, -⟩ := bytesOf_ikcpSend kcp buffer hmss
  rw [accepted, hbytes, List.length_append, Nat.add_sub_cancel_left, List.take_left]

/-- **A call of `ikcp_send` that returns 0 accepts all of its buffer.** -/
theorem accepted_eq_buffer {kcp : Ikcpcb} {buffer : List UInt8} (hmss : 0 < kcp.mss.toNat)
    (hcode : (ikcpSend kcp buffer).2 = 0) : accepted kcp buffer = buffer := by
  obtain ⟨taken, rest, rfl, hbytes, hall⟩ := bytesOf_ikcpSend kcp buffer hmss
  rw [accepted, hbytes, List.length_append, Nat.add_sub_cancel_left, hall hcode, List.append_nil,
    List.take_length]

/-- **In message mode a call of `ikcp_send` sends its buffer**, if it returns 0, and else nothing. -/
theorem sentAfter_message {kcp : Ikcpcb} (hmss : 0 < kcp.mss.toNat) (hstream : kcp.stream = 0)
    (buffer : List UInt8) (sent : List (List UInt8)) :
    sentAfter kcp buffer sent =
      if (ikcpSend kcp buffer).2 = 0 then sent ++ [buffer] else sent := by
  by_cases hcode : (ikcpSend kcp buffer).2 = 0
  · rw [sentAfter, if_pos (.inl hcode), if_pos hcode, accepted_eq_buffer hmss hcode]
  · have hmode : ikcpSend kcp buffer = queueFragments kcp buffer := if_neg (not_not.mpr hstream)
    have hsame : (ikcpSend kcp buffer).1 = kcp := by
      rw [hmode] at hcode ⊢
      exact (bytesOf_queueFragments kcp buffer hmss).resolve_left (fun h => hcode h.1) |>.2
    have hnone : accepted kcp buffer = [] := by
      rw [accepted, hsame, Nat.sub_self, List.take_zero]
    rw [sentAfter, if_neg (not_or.mpr ⟨hcode, not_not.mpr hnone⟩), if_neg hcode]

/-- Queueing fragments, behind a stream of pieces. -/
theorem framed_queueFragments {kcp : Ikcpcb} (buffer : List UInt8) (hmss : 0 < kcp.mss.toNat)
    {groups : List (List Ikcpseg)} {pre : List Ikcpseg}
    (h : Framed Ikcpseg.left groups (pre ++ kcp.sndQueue)) (hsize : ∀ g ∈ groups, g.length < 128) :
    ∃ groups', Framed Ikcpseg.left groups' (pre ++ (queueFragments kcp buffer).1.sndQueue) ∧
      (∀ g ∈ groups', g.length < 128) ∧
      (kcp.stream = 0 →
        ((queueFragments kcp buffer).2 = 0 ∧ ∃ g, groups' = groups ++ [g] ∧ bytesOf g = buffer) ∨
        ((queueFragments kcp buffer).2 ≠ 0 ∧ groups' = groups)) := by
  rcases queueFragments_spec kcp buffer hmss with heq | ⟨count, hpos, hcount, hbytes, heq⟩ <;>
    rw [heq]
  · exact ⟨groups, h, hsize, fun _ => .inr ⟨show (-2 : ℤ) ≠ 0 by decide, rfl⟩⟩
  · obtain ⟨groups', hframed, hsize', hgroups⟩ := framed_fragments kcp.stream
      kcp.mss.toNat buffer h hsize hpos hcount
    rw [List.append_assoc] at hframed
    exact ⟨groups', hframed, hsize', fun hstream => .inl ⟨rfl, _, hgroups hstream, hbytes⟩⟩

/-- What a call of `ikcp_send` makes of a stream of pieces: in message mode, a group more or
nothing. -/
structure Sends (kcp : Ikcpcb) (buffer : List UInt8) (result : Ikcpcb × ℤ)
    (groups : List (List Ikcpseg)) (pre : List Ikcpseg) (groups' : List (List Ikcpseg)) : Prop where
  framed : Framed Ikcpseg.left groups' (pre ++ result.1.sndQueue)
  size : ∀ g ∈ groups', g.length < 128
  message : kcp.stream = 0 →
    (result.2 = 0 ∧ ∃ g, groups' = groups ++ [g] ∧ bytesOf g = buffer) ∨
      (result.2 ≠ 0 ∧ groups' = groups)

/-- **`ikcp_send`**, behind a stream of pieces. -/
theorem ikcpSend_spec (kcp : Ikcpcb) (buffer : List UInt8) (hmss : 0 < kcp.mss.toNat)
    {groups : List (List Ikcpseg)} {pre : List Ikcpseg}
    (h : Framed Ikcpseg.left groups (pre ++ kcp.sndQueue)) (hsize : ∀ g ∈ groups, g.length < 128) :
    ∃ groups', Sends kcp buffer (ikcpSend kcp buffer) groups pre groups' := by
  unfold ikcpSend
  by_cases hstream : kcp.stream = 0
  · rw [if_neg (not_not.mpr hstream)]
    obtain ⟨groups', hframed, hsize', hmessage⟩ := framed_queueFragments buffer hmss h hsize
    exact ⟨groups', hframed, hsize', hmessage⟩
  rw [if_pos hstream]
  -- behind the segment that was filled up, in stream mode
  have hrest (kcp' : Ikcpcb) (groups₁ : List (List Ikcpseg)) (rest : List UInt8)
      (hmss' : 0 < kcp'.mss.toNat) (h₁ : Framed Ikcpseg.left groups₁ (pre ++ kcp'.sndQueue))
      (hsize₁ : ∀ g ∈ groups₁, g.length < 128) :
      ∃ groups', Sends kcp buffer
        (if rest.length = 0 then (kcp', 0) else queueFragments kcp' rest) groups pre groups' := by
    split
    · exact ⟨groups₁, h₁, hsize₁, fun hs => absurd hs hstream⟩
    · obtain ⟨groups', hframed, hsize', -⟩ := framed_queueFragments rest hmss' h₁ hsize₁
      exact ⟨groups', hframed, hsize', fun hs => absurd hs hstream⟩
  rcases topUp_spec kcp buffer with heq | ⟨init, old, taken, rest, hinit, -, -, heq⟩ <;> rw [heq]
  · exact hrest kcp groups buffer hmss h hsize
  · rw [hinit, ← List.append_assoc] at h
    obtain ⟨-, ginit, g, rfl, hframed⟩ :=
      h.replace_last (b := ({ data := old.data ++ taken } : Ikcpseg)) rfl
    refine hrest { kcp with sndQueue := init ++ [{ data := old.data ++ taken }] } _ rest hmss
      (by rwa [List.append_assoc] at hframed) ?_
    intro g' hg'
    rcases List.mem_append.mp hg' with hg' | hg'
    · exact hsize g' (List.mem_append_left _ hg')
    · obtain rfl := List.mem_singleton.mp hg'
      have hold := hsize (g ++ [old]) (List.mem_append_right _ List.mem_cons_self)
      rwa [List.length_append] at hold ⊢

/-- **A call of `ikcp_send`**, for what is in transit. -/
theorem Conveyed.send {kcp : Ikcpcb} (buffer : List UInt8) {sent received : List (List UInt8)}
    {groups : List (List Ikcpseg)} {pre : List Ikcpseg} (hmss : 0 < kcp.mss.toNat)
    (h : Conveyed sent received groups (pre ++ kcp.sndQueue)) :
    ∃ groups', Conveyed (sentAfter kcp buffer sent) received groups'
        (pre ++ (ikcpSend kcp buffer).1.sndQueue) ∧
      (kcp.stream = 0 → received ++ groups.map bytesOf = sent →
        received ++ groups'.map bytesOf = sentAfter kcp buffer sent) := by
  obtain ⟨groups', hsends⟩ := ikcpSend_spec kcp buffer hmss h.framed h.size
  have hbytes := bytesOf_accepted kcp buffer hmss
  have hflat : (sentAfter kcp buffer sent).flatten = sent.flatten ++ accepted kcp buffer := by
    unfold sentAfter
    split
    · rw [List.flatten_append, List.flatten_singleton]
    · rename_i hnone
      rw [not_or, not_not] at hnone
      rw [hnone.2, List.append_nil]
  refine ⟨groups', ⟨hsends.framed, hsends.size, ?_⟩, fun hstream hmessages => ?_⟩
  · rw [hflat, ← h.bytes, bytesOf_append, bytesOf_append, hbytes]
    simp only [List.append_assoc]
  · rw [sentAfter_message hmss hstream]
    rcases hsends.message hstream with ⟨hcode, g, rfl, hg⟩ | ⟨hcode, rfl⟩
    · rw [if_pos hcode, List.map_append, List.map_singleton, hg, ← List.append_assoc, hmessages]
    · rw [if_neg hcode]
      exact hmessages

theorem plain_ikcpSend {kcp : Ikcpcb} (buffer : List UInt8) (hmss : 0 < kcp.mss.toNat)
    (hmss' : kcp.mss.toNat < 2 ^ 31) (hplain : ∀ q ∈ kcp.sndQueue, Plain q) :
    ∀ q ∈ (ikcpSend kcp buffer).1.sndQueue, Plain q := by
  have hqueue (kcp : Ikcpcb) (buffer : List UInt8) (hmss : 0 < kcp.mss.toNat)
      (hmss' : kcp.mss.toNat < 2 ^ 31) (hplain : ∀ q ∈ kcp.sndQueue, Plain q) :
      ∀ q ∈ (queueFragments kcp buffer).1.sndQueue, Plain q := by
    rcases queueFragments_spec kcp buffer hmss with heq | ⟨count, -, hcount, -, heq⟩ <;> rw [heq]
    · exact hplain
    · intro q hq
      rcases List.mem_append.mp hq with hq | hq
      · exact hplain q hq
      · exact plain_fragments hmss' hcount hq
  unfold ikcpSend
  split
  swap
  · exact hqueue kcp buffer hmss hmss' hplain
  rcases topUp_spec kcp buffer with heq | ⟨init, old, taken, rest, hinit, -, hlen, heq⟩ <;>
    rw [heq] <;> dsimp only
  · split
    · exact hplain
    · exact hqueue kcp buffer hmss hmss' hplain
  · have hplain' : ∀ q ∈ init ++ [({ data := old.data ++ taken } : Ikcpseg)], Plain q := by
      intro q hq
      rcases List.mem_append.mp hq with hq | hq
      · exact hplain q (by rw [hinit]; exact List.mem_append_left _ hq)
      · obtain rfl := List.mem_singleton.mp hq
        refine ⟨rfl, Nat.zero_lt_succ _, ?_⟩
        show (old.data ++ taken).length < 2 ^ 31
        omega
    split
    · exact hplain'
    · exact hqueue { kcp with sndQueue := init ++ [{ data := old.data ++ taken }] } rest hmss hmss'
        hplain'

/-! ## Receiving -/

/-- What the receiving half moves to `rcv_queue` stays in transit. -/
theorem inTransit_advance {hist : List Ikcpseg} {r : ℕ} {rcv rcv' : Incoming}
    {moved : List Ikcpseg} (hadv : Advance (Genuine hist) wireLimit r rcv rcv' moved)
    (sndQueue : List Ikcpseg) :
    inTransit hist (r + moved.length) rcv'.rcvQueue sndQueue =
      inTransit hist r rcv.rcvQueue sndQueue := by
  have hmoved : moved.map Ikcpseg.bare ++ hist.drop (r + moved.length) = hist.drop r :=
    hadv.stretch.map_append_drop
  rw [inTransit, inTransit, hadv.queue, ← hmoved, List.map_append]
  simp only [List.append_assoc]

theorem bytesOf_map_bare (segs : List Ikcpseg) : bytesOf (segs.map Ikcpseg.bare) = bytesOf segs := by
  rw [bytesOf, bytesOf, List.flatMap_map]
  rfl

/-- **A call of `ikcp_recv`** that takes a message. -/
theorem Conveyed.take {sent received : List (List UInt8)} {groups : List (List Ikcpseg)}
    {rcvQueue later : List Ikcpseg} {seg : Ikcpseg} {rest : List Ikcpseg}
    (h : Conveyed sent received groups (rcvQueue.map Ikcpseg.bare ++ later))
    (hqueue : rcvQueue = seg :: rest) (hall : seg.left < (seg :: rest).length) :
    ∃ groups', Conveyed sent (received ++ [bytesOf (takeMessage rcvQueue).1]) groups'
        ((takeMessage rcvQueue).2.map Ikcpseg.bare ++ later) ∧
      groups.map bytesOf = bytesOf (takeMessage rcvQueue).1 :: groups'.map bytesOf := by
  have hfront : Framing.front Ikcpseg.left (rcvQueue.map Ikcpseg.bare) =
      ((takeMessage rcvQueue).1.map Ikcpseg.bare, (takeMessage rcvQueue).2.map Ikcpseg.bare) := by
    rw [takeMessage_eq_front]
    exact Framing.front_map (f := Ikcpseg.bare) (fun _ => rfl) rcvQueue
  have hframed := h.framed
  have hbytes := h.bytes
  have hsplit := congrArg bytesOf (takeMessage_append rcvQueue)
  rw [hqueue, List.map_cons] at hframed hfront
  obtain ⟨g, groups', rfl, hg, hrest⟩ := hframed.front_eq (by
    rw [List.length_cons, List.length_map]
    exact hall)
  rw [hfront] at hg hrest
  have hgbytes : bytesOf g = bytesOf (takeMessage rcvQueue).1 := by
    rw [← hg, bytesOf_map_bare, hqueue]
  rw [← hqueue] at hrest
  refine ⟨groups', ⟨hrest, fun g' hg' => h.size g' (List.mem_cons_of_mem g hg'), ?_⟩, ?_⟩
  · rw [bytesOf_append, bytesOf_map_bare] at hbytes ⊢
    rw [bytesOf_append] at hsplit
    rw [← hbytes, ← hsplit, List.flatten_append, List.flatten_singleton]
    simp only [List.append_assoc]
  · rw [List.map_cons, hgbytes]

end Kcp
end UnixNetwork
