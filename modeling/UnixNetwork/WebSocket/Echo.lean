import UnixNetwork.WebSocket.Lifecycle

/-!
# What the C server echoes

Two readings of the invariant of `WebSocket.Lifecycle`.

**No carry-over.**  The reply to a chunk is `reply chunk`, in every run and on
every connection: nothing that was received before, there or elsewhere, can show
up in it (`no_carry_over`).

**No reassembly.**  There is one reply for each chunk that `recv` returned, not
for each frame the client sent.  A run in which every chunk is one whole frame of
at most 125 bytes echoes every message, in order (`echo_of_whole_frames`); a frame
cut in two is answered twice, and never with the message
(`echo_of_split_frame`).
-/

namespace UnixNetwork
namespace WebSocket
namespace EpollWebsocketC

open Bytes Rfc6455

variable {O : OpenSSL} {s : State} {id : ItemId} {si : Sockitem}

/-! ## No carry-over -/

/-- The messages of a connection that wait in its `sendbuffer`. -/
def waiting : Cell → List (List UInt8)
  | .live si => queued si
  | _ => []

/-- **What a connection sends.**  After the response to the handshake, one reply
for each chunk, the last of them possibly still waiting. -/
theorem tail_sends_append_waiting (h : (server O).Reachable s) (hid : id ≠ listener) :
    (sends s.log id ++ waiting (s.heap id)).tail = (chunks s.log id).map reply := by
  have hcell := (inv_of_reachable h).history id
  cases hheap : s.heap id with
  | unallocated =>
    rw [hheap] at hcell
    simp [waiting, hcell.1, hcell.2]
  | freed =>
    rw [hheap] at hcell
    rcases hcell with ⟨hsends, hchunks⟩ | ⟨acc, hsent⟩
    · simp [waiting, hsends, hchunks]
    · simp [waiting, hsent]
  | live si =>
    rw [hheap] at hcell
    cases hcell hid with
    | handshake _ hcb hsends hchunks =>
      simp [waiting, queued_recvCb hcb, hsends, hchunks]
    | data acc _ _ _ hsent =>
      rw [waiting, hsent, List.tail_cons]

/-- The message sent after the response and `i` more is the reply to chunk `i`. -/
theorem sends_getElem? (h : (server O).Reachable s) (hid : id ≠ listener) {i : ℕ}
    {chunk message : List UInt8} (hchunk : (chunks s.log id)[i]? = some chunk)
    (hsent : (sends s.log id)[i + 1]? = some message) : message = reply chunk := by
  have htail := tail_sends_append_waiting h hid
  have hi := congrArg (fun l => l[i]?) htail
  simp only [List.getElem?_tail, List.getElem?_map, hchunk, Option.map_some] at hi
  have hlt : i + 1 < (sends s.log id).length := (List.getElem?_eq_some_iff.mp hsent).1
  rw [List.getElem?_append_left hlt, hsent] at hi
  exact Option.some.inj hi

/-- **The reply depends on the chunk alone.**  In every reachable state, `recv_cb`
on a chunk of data finishes inside its buffers and queues `reply chunk`, of
`L + 2` bytes; and so, over two runs with any histories, equal chunks are
answered with equal bytes. -/
theorem no_carry_over (O : OpenSSL) :
    (∀ s id si chunk, (server O).Reachable s → s.heap id = .live si → si.callback = .recvCb →
      si.status = .wsDatatransform → chunk ≠ [] → chunk.length ≤ bufferLength →
      ∃ s' si', recvCb O s id si.sockfd si (.data chunk) = .ok s' ∧ s'.heap id = .live si' ∧
        si'.slength = (((padTo bufferLength chunk).getD 1 0).toNat % 128 : ℕ) + 2 ∧
        si'.sendbuffer.toList.take (((padTo bufferLength chunk).getD 1 0).toNat % 128 + 2) =
          reply chunk) ∧
    ∀ s₁ s₂ id₁ id₂ i₁ i₂ chunk m₁ m₂, (server O).Reachable s₁ → (server O).Reachable s₂ →
      id₁ ≠ listener → id₂ ≠ listener →
      (chunks s₁.log id₁)[i₁]? = some chunk → (chunks s₂.log id₂)[i₂]? = some chunk →
      (sends s₁.log id₁)[i₁ + 1]? = some m₁ → (sends s₂.log id₂)[i₂ + 1]? = some m₂ →
      m₁ = m₂ := by
  constructor
  · intro s id si chunk h hlive hcb hstatus _ hchunk
    have hs := inv_of_reachable h
    have hid : id ≠ listener := fun hl => by
      rw [(hs.role id si hlive).mpr hl] at hcb
      cases hcb
    have hcell := hs.history id
    rw [hlive] at hcell
    cases hcell hid with
    | handshake hstatus' _ _ _ =>
      rw [hstatus] at hstatus'
      cases hstatus'
    | data acc _ hzero _ _ =>
      obtain ⟨si', hok, hq⟩ := recvCb_data_eq (O := O) id (hs.registered id si hlive)
        hchunk hstatus hzero
      have hlen := length_reply chunk
      refine ⟨_, si', hok, by simp [State.touch], ?_, ?_⟩
      · rw [hq.slength, hlen]
        push_cast
        rfl
      · have := hq.sendbuffer
        rw [hlen] at this
        exact this
  · intro s₁ s₂ id₁ id₂ i₁ i₂ chunk m₁ m₂ h₁ h₂ hid₁ hid₂ hc₁ hc₂ hm₁ hm₂
    rw [sends_getElem? h₁ hid₁ hc₁ hm₁, sends_getElem? h₂ hid₂ hc₂ hm₂]

/-- After the example handshake and one message, a second one is answered by
its own reply. -/
theorem no_carry_over_session :
    ∃ s si s' si', (server sampleOpenSSL).Reachable s ∧ s.heap 1 = .live si ∧
      recvCb sampleOpenSSL s 1 si.sockfd si (.data [0x81, 0x82, 1, 2, 3, 4, 0x49, 0x6b]) = .ok s' ∧
      s'.heap 1 = .live si' ∧ si'.sendbuffer.toList.take 4 = [0x81, 2, 0x48, 0x69] := by
  have hrun : ((drive sampleOpenSSL sampleStart (session [ascii "leftovers"])).map fun s =>
      match s.heap 1 with
      | .live si => some (si.callback, si.status)
      | _ => none) = some (some (.recvCb, .wsDatatransform)) := by decide +kernel
  obtain ⟨s, hs, hcell⟩ := Option.map_eq_some_iff.mp hrun
  have hreach := drive_reachable (sampleStart_reachable _) hs
  cases hheap : s.heap 1 with
  | unallocated => simp [hheap] at hcell
  | freed => simp [hheap] at hcell
  | live si =>
    have hsi : si.callback = .recvCb ∧ si.status = .wsDatatransform := by
      simpa [hheap] using hcell
    obtain ⟨s', si', hok, hlive, -, htake⟩ := (no_carry_over sampleOpenSSL).1 s 1 si
      [0x81, 0x82, 1, 2, 3, 4, 0x49, 0x6b] hreach hheap hsi.1 hsi.2 (by decide) (by decide)
    refine ⟨s, si, s', si', hreach, hheap, hok, hlive, ?_⟩
    have hL : ((padTo bufferLength [0x81, 0x82, 1, 2, 3, 4, 0x49, 0x6b]).getD 1 0).toNat % 128 = 2 :=
      by decide +kernel
    rw [hL] at htake
    rw [htake]
    decide +kernel

/-! ## No reassembly -/

/-- The reply to one whole masked frame is the frame that carries its message. -/
theorem reply_clientText (key : MaskKey) {payload : List UInt8} (h : payload.length ≤ 125) :
    reply (serialize (clientText key payload)) = serialize (serverText payload) := by
  have hshort : payload.length < 126 := by omega
  have hser := serialize_clientText key payload
  rw [lengthBytes, if_pos hshort, List.nil_append, lengthCode, if_pos hshort] at hser
  have hkey : (List.ofFn key).length = 4 := List.length_ofFn
  have hlen : (serialize (clientText key payload)).length = payload.length + 6 := by
    rw [hser]
    simp only [List.length_cons, List.length_append, hkey, length_applyMask]
    omega
  have hbuf : bufferLength = 1024 := rfl
  -- the frame as it lies in the buffer
  have hpad : padTo bufferLength (serialize (clientText key payload)) =
      0x81 :: UInt8.ofNat (128 + payload.length) :: (List.ofFn key ++ (applyMask key payload ++
        List.replicate (bufferLength - (payload.length + 6)) 0)) := by
    rw [padTo, hlen, hser]
    simp
  have hL : shortLength (padTo bufferLength (serialize (clientText key payload))) =
      payload.length := by
    rw [hpad, shortLength, List.getD_cons_succ, List.getD_cons_zero, UInt8.toNat_ofNat']
    omega
  have hmask := applyMask_keyOf (padTo bufferLength (serialize (clientText key payload)))
    (k := payload.length) (by rw [length_padTo (by omega)]; omega)
  have hdrop2 : (padTo bufferLength (serialize (clientText key payload))).drop 2 =
      List.ofFn key ++ (applyMask key payload ++
        List.replicate (bufferLength - (payload.length + 6)) 0) := by
    rw [hpad]
    rfl
  have hdrop6 : ((padTo bufferLength (serialize (clientText key payload))).drop 6).take
      payload.length = applyMask key payload := by
    have h6 : (padTo bufferLength (serialize (clientText key payload))).drop 6 =
        ((padTo bufferLength (serialize (clientText key payload))).drop 2).drop 4 := by
      rw [List.drop_drop]
    rw [h6, hdrop2, List.drop_left' hkey, List.take_left' (length_applyMask _ _)]
  rw [hdrop2, keyOf_ofFn_append, hdrop6, applyMask_applyMask] at hmask
  have hreply : reply (serialize (clientText key payload)) =
      0x81 :: encodedLength (shortLength (padTo bufferLength (serialize (clientText key payload))))
        :: (List.range (shortLength (padTo bufferLength (serialize (clientText key payload))))).map
          fun i => (padTo bufferLength (serialize (clientText key payload))).getD (6 + i) 0 ^^^
            (padTo bufferLength (serialize (clientText key payload))).getD (2 + i % 4) 0 := rfl
  rw [hreply, hL, ← hmask, serialize_serverText_short hshort]

/-- **Whole frames are echoed.**  In every run, on every connection on which
every chunk of data was one whole masked text frame of at most 125 bytes, what
was passed to `send` after the response to the handshake, together with the one
message that may still wait in `sendbuffer`, is the text frames of exactly these
messages in their order. -/
theorem echo_of_whole_frames (h : (server O).Reachable s) (hid : id ≠ listener)
    (messages : List (MaskKey × List UInt8)) (hshort : ∀ m ∈ messages, m.2.length ≤ 125)
    (hwhole : chunks s.log id = messages.map fun m => serialize (clientText m.1 m.2)) :
    (sends s.log id ++ waiting (s.heap id)).tail =
      messages.map fun m => serialize (serverText m.2) := by
  rw [tail_sends_append_waiting h hid, hwhole, List.map_map]
  apply List.map_congr_left
  intro m hm
  exact reply_clientText m.1 (hshort m hm)

/-- Two messages, each in a chunk of its own. -/
theorem echo_of_two_frames :
    ∃ s, drive sampleOpenSSL sampleStart (session
        [serialize (clientText ![1, 2, 3, 4] (ascii "Hi")),
          serialize (clientText ![5, 6, 7, 8] (ascii "there"))]) = some s ∧
      (sends s.log 1 ++ waiting (s.heap 1)).tail =
        [serialize (serverText (ascii "Hi")), serialize (serverText (ascii "there"))] := by
  have hrun : ((drive sampleOpenSSL sampleStart (session
      [serialize (clientText ![1, 2, 3, 4] (ascii "Hi")),
        serialize (clientText ![5, 6, 7, 8] (ascii "there"))])).map fun s => chunks s.log 1) =
      some ([(![1, 2, 3, 4], ascii "Hi"), (![5, 6, 7, 8], ascii "there")].map
        fun m => serialize (clientText m.1 m.2)) := by decide +kernel
  obtain ⟨s, hs, hwhole⟩ := Option.map_eq_some_iff.mp hrun
  exact ⟨s, hs, echo_of_whole_frames (drive_reachable (sampleStart_reachable _) hs) (by decide) _
    (by decide) hwhole⟩

/-- **A frame cut in two.**  One message of two bytes, whose frame arrives as two
chunks of four bytes: both are answered, and neither answer carries the
message. -/
theorem echo_of_split_frame :
    ∃ s, (server sampleOpenSSL).Reachable s ∧
      (chunks s.log 1).flatten =
        ([(![1, 2, 3, 4], ascii "Hi")].map fun m => serialize (clientText m.1 m.2)).flatten ∧
      waiting (s.heap 1) = [] ∧
      (sends s.log 1).tail ≠ [(![1, 2, 3, 4], ascii "Hi")].map
        fun m : MaskKey × List UInt8 => serialize (serverText m.2) := by
  have hrun : ((drive sampleOpenSSL sampleStart (session [[0x81, 0x82, 1, 2], [3, 4, 0x49, 0x6b]])).map
      fun s => ((chunks s.log 1).flatten, waiting (s.heap 1), (sends s.log 1).tail)) =
      some ([0x81, 0x82, 1, 2, 3, 4, 0x49, 0x6b], [],
        [[0x81, 2, 1, 2], [0x81, 4, 0x49, 0x6b, 0, 0]]) := by decide +kernel
  obtain ⟨s, hs, hobs⟩ := Option.map_eq_some_iff.mp hrun
  simp only [Prod.mk.injEq] at hobs
  obtain ⟨hchunks, hwaiting, hsends⟩ := hobs
  refine ⟨s, drive_reachable (sampleStart_reachable _) hs, ?_, hwaiting, ?_⟩
  · rw [hchunks]
    decide
  · rw [hsends]
    decide

end EpollWebsocketC
end WebSocket
end UnixNetwork
