import UnixNetwork.Kcp.Endpoint
import UnixNetwork.Kcp.Leg

/-!
# A session over a network

Two ends of a session, and a network between them that may lose datagrams, deliver them
in any order and any number of times, but does not make them up.  A step is a call at
one of the two ends; a datagram that the other end has sent may be the argument of
`ikcp_input` any number of times, now or later (`Session.Allows`).

## What is assumed

Of the applications, what `Usage` says, with receive windows that a header has room for
(`wireUsage`).  Of the network, that a datagram is not delivered when `lifetime` segments
have been numbered since it was sent, in either direction: numbers have 32 bits, and an
older datagram would be taken for a new one.

## What follows

`Inv` holds of every state that is reached.  From it: what one application has received
is the beginning of what the other has sent (`session_prefix`, `session_bytes`); a
segment is kept by the sender until the receiver has it (`session_retained`), so nothing
has been lost when nothing waits at the sender and the queue of the receiver is empty
(`session_complete`); the receive queue never fills up with a message that is not
complete (`session_unblocked`).
-/

namespace UnixNetwork
namespace Kcp

/-- The two ends of a session. -/
inductive Side where
  | left
  | right
  deriving DecidableEq, Repr

def Side.peer : Side → Side
  | .left => .right
  | .right => .left

@[simp] theorem Side.peer_peer (x : Side) : x.peer.peer = x := by
  cases x <;> rfl

theorem Side.peer_ne (x : Side) : x.peer ≠ x := by
  cases x <;> decide

theorem Side.eq_or_eq_peer (x y : Side) : y = x ∨ y = x.peer := by
  cases x <;> cases y <;> simp [Side.peer]

/-- A datagram, and how many segments the two ends had numbered when it was sent. -/
structure Packet where
  bytes : List UInt8
  numbered : Side → ℕ

/-- The two control blocks; for each end, what it has sent into the network, the segments it has
numbered, what its application has sent and received, and whether it has been in stream
mode. -/
structure Session where
  kcp : Side → Ikcpcb
  net : Side → List Packet
  hist : Side → List Ikcpseg
  sent : Side → List (List UInt8)
  received : Side → List (List UInt8)
  streamed : Side → Bool

def Session.start (conv : IUINT32) : Session where
  kcp := fun _ => ikcpCreate conv
  net := fun _ => []
  hist := fun _ => []
  sent := fun _ => []
  received := fun _ => []
  streamed := fun _ => false

/-! ## Steps -/

/-- What the application has sent after a call. -/
def Call.sent (kcp : Ikcpcb) (sent : List (List UInt8)) : Call → List (List UInt8)
  | .send buffer => sentAfter kcp buffer sent
  | _ => sent

/-- What it has received. -/
def Call.received (kcp : Ikcpcb) (received : List (List UInt8)) : Call → List (List UInt8)
  | .recv len => receivedAfter kcp len received
  | _ => received

/-- The segments that a call has numbered: those that have left `snd_queue`. -/
def numberedBy (kcp kcp' : Ikcpcb) : List Ikcpseg :=
  kcp.sndQueue.take (kcp.sndQueue.length - kcp'.sndQueue.length)

theorem numberedBy_of_le {kcp kcp' : Ikcpcb} (h : kcp.sndQueue.length ≤ kcp'.sndQueue.length) :
    numberedBy kcp kcp' = [] := by
  rw [numberedBy, Nat.sub_eq_zero_of_le h, List.take_zero]

/-- A call at one end. -/
def Session.after (s : Session) (x : Side) (call : Call) : Session :=
  let result := call.run (s.kcp x)
  let hist := Function.update s.hist x (s.hist x ++ numberedBy (s.kcp x) result.1)
  { kcp := Function.update s.kcp x result.1
    net := Function.update s.net x (s.net x ++
      result.2.map fun bytes => { bytes := bytes, numbered := fun y => (hist y).length })
    hist := hist
    sent := Function.update s.sent x (call.sent (s.kcp x) (s.sent x))
    received := Function.update s.received x (call.received (s.kcp x) (s.received x))
    streamed := Function.update s.streamed x (s.streamed x || decide (result.1.stream ≠ 0)) }

/-- The network delivers what has been sent, and not too late. -/
def Session.Delivers (s : Session) (x : Side) (data : List UInt8) : Prop :=
  ∃ p ∈ s.net x.peer, p.bytes = data ∧ ∀ y, (s.hist y).length < p.numbered y + lifetime

/-- The calls that can be made at an end. -/
def Session.Allows (s : Session) (x : Side) (call : Call) : Prop :=
  wireUsage.Allows (s.kcp x) call ∧ ∀ data, call = .input data → s.Delivers x data

/-- **The system.** -/
def session (conv : IUINT32) : TransitionSystem Session (Side × Call) where
  init := fun s => s = Session.start conv
  step := fun s l s' => s.Allows l.1 l.2 ∧ s' = s.after l.1 l.2

/-! ## Runs -/

/-- The calls that an application may make at any time. -/
def Call.own : Call → Bool
  | .input _ => false
  | call => call.free

theorem Session.allows_of_own (s : Session) (x : Side) {call : Call} (h : call.own = true) :
    s.Allows x call := by
  cases call with
  | input data => cases h
  | setmtu _ | wndsize _ _ | minrto _ => cases h
  | _ => exact ⟨trivial, fun _ heq => by cases heq⟩

/-- Calls of one application, one after the other. -/
def Session.calls (s : Session) (x : Side) (calls : List Call) : Session :=
  calls.foldl (fun s call => s.after x call) s

theorem Session.reachable_calls {conv : IUINT32} {s : Session} {x : Side} {calls : List Call}
    (h : (session conv).Reachable s) (hown : ∀ call ∈ calls, call.own = true) :
    (session conv).Reachable (s.calls x calls) := by
  induction calls generalizing s with
  | nil => exact h
  | cons call calls ih =>
    have hstep := h.step (l := (x, call)) ⟨s.allows_of_own x (hown call List.mem_cons_self), rfl⟩
    exact ih hstep fun call' h' => hown call' (List.mem_cons_of_mem call h')

/-- What arrives leaves `snd_queue` as it is. -/
theorem sndQueue_ikcpInput (kcp : Ikcpcb) (data : List UInt8) :
    (ikcpInput kcp data).1.sndQueue = kcp.sndQueue := by
  refine ikcpInput_invariant (P := fun kcp' => kcp'.sndQueue = kcp.sndQueue) ?_ ?_ rfl data
  · intro st h data hst
    exact (settings_inputSeg st h data).2.2.2.trans hst
  · intro prevUna st hst
    obtain ⟨_, _, _, heq, -⟩ := inputEnd_spec prevUna st
    rw [heq]
    exact hst

/-- A datagram numbers no segment and sends nothing at the other end. -/
theorem Session.after_input (s : Session) (x : Side) (data : List UInt8) :
    (s.after x (.input data)).hist = s.hist ∧
      (s.after x (.input data)).net x.peer = s.net x.peer := by
  constructor
  · have hnone := numberedBy_of_le (congrArg List.length (sndQueue_ikcpInput (s.kcp x) data)).ge
    show Function.update s.hist x (s.hist x ++ numberedBy (s.kcp x) (ikcpInput (s.kcp x) data).1) = _
    rw [hnone, List.append_nil, Function.update_eq_self]
  · exact Function.update_of_ne x.peer_ne _ _

/-- The network delivers datagrams, one after the other. -/
def Session.deliver (s : Session) (x : Side) (packets : List Packet) : Session :=
  packets.foldl (fun s p => s.after x (.input p.bytes)) s

theorem Session.reachable_deliver {conv : IUINT32} {s : Session} {x : Side} {packets : List Packet}
    (h : (session conv).Reachable s) (hnet : ∀ p ∈ packets, p ∈ s.net x.peer)
    (hshort : ∀ y, (s.hist y).length < lifetime) :
    (session conv).Reachable (s.deliver x packets) := by
  induction packets generalizing s with
  | nil => exact h
  | cons p packets ih =>
    have hdelivers : s.Delivers x p.bytes := ⟨p, hnet p List.mem_cons_self, rfl, fun y => by
      have := hshort y
      omega⟩
    have hallows : s.Allows x (.input p.bytes) :=
      ⟨trivial, fun _ heq => by cases heq; exact hdelivers⟩
    have hstep := h.step (l := (x, .input p.bytes)) ⟨hallows, rfl⟩
    obtain ⟨hhist, hsame⟩ := s.after_input x p.bytes
    refine ih hstep (fun p' hp' => ?_) ?_
    · show p' ∈ (s.after x (.input p.bytes)).net x.peer
      rw [hsame]
      exact hnet p' (List.mem_cons_of_mem p hp')
    · show ∀ y, ((s.after x (.input p.bytes)).hist y).length < lifetime
      rw [hhist]
      exact hshort

/-! ## The invariant -/

/-- **What holds of the two ends and the network**, for the indices that the serial numbers are
of: each end is sound, each direction conveys what has been sent, and what is said in a
datagram that has been sent is true. -/
structure Inv (conv : IUINT32) (s : Session) (una r flushed : Side → ℕ) : Prop where
  sound : ∀ x, Sound conv wireUsage (s.kcp x)
  leg : ∀ x, Leg conv (s.kcp x) (s.kcp x.peer) (s.hist x) (una x) (r x) (flushed x) (s.sent x)
    (s.received x.peer) (s.streamed x)
  said : ∀ x, ∀ p ∈ s.net x, ∃ segs, segs ≠ [] ∧ p.bytes = wires segs ∧ ∀ seg ∈ segs,
    Said conv (s.hist x) (Confirmed (flushed x.peer) (r x.peer) (s.kcp x).incoming)
      (p.numbered x) (p.numbered x.peer) seg

theorem Said.mono {conv : IUINT32} {hist hist' : List Ikcpseg} {confirmed confirmed' : ℕ → Prop}
    {n m : ℕ} {seg : Ikcpseg} (h : Said conv hist confirmed n m seg) (hhist : hist <+: hist')
    (hmono : ∀ j, confirmed j → confirmed' j) : Said conv hist' confirmed' n m seg where
  acceptable := h.acceptable
  cmd := h.cmd
  frg := h.frg
  carries := h.carries.mono hhist
  confirms := h.confirms.mono hmono

variable {conv : IUINT32} {s : Session} {una r flushed : Side → ℕ} {x : Side}

theorem inv_start (conv : IUINT32) :
    Inv conv (Session.start conv) (fun _ => 0) (fun _ => 0) (fun _ => 0) where
  sound := fun _ => sound_ikcpCreate conv wireUsage
  leg := fun _ => leg_ikcpCreate conv
  said := fun _ _ hp => absurd hp List.not_mem_nil

/-- **A call at one end**, from what it does to the two directions: `hist`, `una` and the others
of the direction that `x` sends in, `r` and `flushed` of the one that it receives in. -/
theorem Inv.call (h : Inv conv s una r flushed) {kcp' : Ikcpcb} {more : List Ikcpseg}
    {out : List (List UInt8)} {una' r' flushed' : ℕ} {sent' received' : List (List UInt8)}
    {streamed' : Bool} (hsound : Sound conv wireUsage kcp')
    (hleg : Leg conv kcp' (s.kcp x.peer) (s.hist x ++ more) una' (r x) (flushed x) sent'
      (s.received x.peer) streamed')
    (hback : Leg conv (s.kcp x.peer) kcp' (s.hist x.peer) (una x.peer) r' flushed' (s.sent x.peer)
      received' (s.streamed x.peer))
    (hheld : ∀ j, Held wireLimit (r x.peer) (s.kcp x).incoming j → Held wireLimit r' kcp'.incoming j)
    (hflushed : flushed x.peer ≤ flushed')
    (hout : ∀ d ∈ out, ∃ segs, segs ≠ [] ∧ d = wires segs ∧ ∀ seg ∈ segs,
      Said conv (s.hist x ++ more) (Confirmed flushed' r' kcp'.incoming) (s.hist x ++ more).length
        (s.hist x.peer).length seg) :
    ∃ una r flushed, Inv conv
      { kcp := Function.update s.kcp x kcp'
        net := Function.update s.net x (s.net x ++ out.map fun bytes =>
          { bytes := bytes
            numbered := fun y => (Function.update s.hist x (s.hist x ++ more) y).length })
        hist := Function.update s.hist x (s.hist x ++ more)
        sent := Function.update s.sent x sent'
        received := Function.update s.received x received'
        streamed := Function.update s.streamed x streamed' } una r flushed := by
  have hne := x.peer_ne
  refine ⟨Function.update una x una', Function.update r x.peer r',
    Function.update flushed x.peer flushed', ?_, ?_, ?_⟩
  · intro y
    rcases x.eq_or_eq_peer y with rfl | rfl
    · simpa using hsound
    · simpa [hne] using h.sound x.peer
  · intro y
    rcases x.eq_or_eq_peer y with rfl | rfl
    · simpa [hne, hne.symm] using hleg
    · simpa [hne, hne.symm] using hback
  · intro y p hp
    rcases x.eq_or_eq_peer y with rfl | rfl
    · simp only [Function.update_self] at hp ⊢
      rcases List.mem_append.mp hp with hold | hnew
      · obtain ⟨segs, hne', hbytes, hsaid⟩ := h.said _ p hold
        refine ⟨segs, hne', hbytes, fun seg hseg => ?_⟩
        exact (hsaid seg hseg).mono (List.prefix_append _ _) fun j hj => hj.mono hflushed hheld
      · obtain ⟨d, hd, rfl⟩ := List.mem_map.mp hnew
        obtain ⟨segs, hne', hbytes, hsaid⟩ := hout d hd
        refine ⟨segs, hne', hbytes, fun seg hseg => ?_⟩
        simpa [hne] using hsaid seg hseg
    · have hsaid := h.said x.peer p
      simp only [Function.update_of_ne hne, Side.peer_peer, Function.update_of_ne hne.symm]
        at hp hsaid ⊢
      exact hsaid hp

/-! ## The calls -/

/-- The direction that `x` receives in. -/
theorem Inv.back (h : Inv conv s una r flushed) (x : Side) :
    Leg conv (s.kcp x.peer) (s.kcp x) (s.hist x.peer) (una x.peer) (r x.peer) (flushed x.peer)
      (s.sent x.peer) (s.received x) (s.streamed x.peer) := by
  have hleg := h.leg x.peer
  rwa [Side.peer_peer] at hleg

/-- **Segments that arrive one after the other**, in both directions. -/
theorem inputSegs_legs {peer : Ikcpcb} {hist back : List Ikcpseg}
    {una r flushed una' r' flushed' n m : ℕ}
    {sent received sent' received' : List (List UInt8)} {streamed streamed' : Bool}
    (segs : List Ikcpseg) (st : InputState)
    (hleg : Leg conv st.kcp peer hist una r flushed sent received streamed)
    (hback : Leg conv peer st.kcp back una' r' flushed' sent' received' streamed')
    (hsaid : ∀ seg ∈ segs, Said conv back (Confirmed flushed r peer.incoming) n m seg)
    (hn : back.length < n + lifetime) (hm : hist.length < m + lifetime) :
    ∃ una₁ r₁,
      Leg conv (inputSegs st (segs.map fun seg => (seg.header, seg.data))).kcp peer hist una₁ r
        flushed sent received streamed ∧
      Leg conv peer (inputSegs st (segs.map fun seg => (seg.header, seg.data))).kcp back una' r₁
        flushed' sent' received' streamed' ∧
      ∀ j, Held wireLimit r' st.kcp.incoming j → Held wireLimit r₁
        (inputSegs st (segs.map fun seg => (seg.header, seg.data))).kcp.incoming j := by
  induction segs generalizing st una r' with
  | nil => exact ⟨una, r', hleg, hback, fun _ => id⟩
  | cons seg segs ih =>
    have hseg := hsaid seg List.mem_cons_self
    obtain ⟨una₂, hleg₂⟩ := hleg.confirm hseg.confirms hseg.cmd hm
    obtain ⟨r₂, -, hback₂, hheld₂⟩ := hback.carry hseg.carries hseg.cmd hseg.frg hn
    obtain ⟨una₁, r₁, hleg₁, hback₁, hheld₁⟩ := ih _ hleg₂ hback₂
      fun seg' hseg' => hsaid seg' (List.mem_cons_of_mem seg hseg')
    exact ⟨una₁, r₁, hleg₁, hback₁, fun j hj => hheld₁ j (hheld₂ j hj)⟩

/-- A call that numbers nothing and sends nothing. -/
theorem Inv.quiet (h : Inv conv s una r flushed) {call : Call} (una' r' : ℕ)
    (hallows : wireUsage.Allows (s.kcp x) call) (hout : (call.run (s.kcp x)).2 = [])
    (hqueue : (s.kcp x).sndQueue.length ≤ (call.run (s.kcp x)).1.sndQueue.length)
    (hleg : Leg conv (call.run (s.kcp x)).1 (s.kcp x.peer) (s.hist x) una' (r x) (flushed x)
      (call.sent (s.kcp x) (s.sent x)) (s.received x.peer)
      (s.streamed x || decide ((call.run (s.kcp x)).1.stream ≠ 0)))
    (hback : Leg conv (s.kcp x.peer) (call.run (s.kcp x)).1 (s.hist x.peer) (una x.peer) r'
      (flushed x.peer) (s.sent x.peer) (call.received (s.kcp x) (s.received x))
      (s.streamed x.peer))
    (hheld : ∀ j, Held wireLimit (r x.peer) (s.kcp x).incoming j →
      Held wireLimit r' (call.run (s.kcp x)).1.incoming j) :
    ∃ una r flushed, Inv conv (s.after x call) una r flushed := by
  have hnone := numberedBy_of_le hqueue
  have hleg' : Leg conv (call.run (s.kcp x)).1 (s.kcp x.peer) (s.hist x ++ []) una' (r x) (flushed x)
      (call.sent (s.kcp x) (s.sent x)) (s.received x.peer)
      (s.streamed x || decide ((call.run (s.kcp x)).1.stream ≠ 0)) := by
    rw [List.append_nil]
    exact hleg
  unfold Session.after
  dsimp only
  rw [hnone]
  refine h.call ((h.sound x).run hallows) hleg' hback hheld le_rfl ?_
  rw [hout]
  exact fun _ hd => absurd hd List.not_mem_nil

/-- A call that changes settings only, and not the receive window. -/
theorem Inv.setting (h : Inv conv s una r flushed) {call : Call}
    (hallows : wireUsage.Allows (s.kcp x) call) (hout : (call.run (s.kcp x)).2 = [])
    (hsnd : (call.run (s.kcp x)).1.outgoing = (s.kcp x).outgoing)
    (hinc : (call.run (s.kcp x)).1.incoming = (s.kcp x).incoming)
    (hack : (call.run (s.kcp x)).1.acklist = (s.kcp x).acklist)
    (hsent : call.sent (s.kcp x) (s.sent x) = s.sent x)
    (hreceived : call.received (s.kcp x) (s.received x) = s.received x) :
    ∃ una r flushed, Inv conv (s.after x call) una r flushed := by
  have hsound := (h.sound x).run hallows
  have hmtu := hsound.sized.mtu_lt
  have hmss := hsound.sized.mtu
  have hconv := hsound.session.trans (h.sound x).session.symm
  have hqueue : (s.kcp x).sndQueue = (call.run (s.kcp x)).1.sndQueue :=
    (congrArg Outgoing.sndQueue hsnd).symm
  refine h.quiet (una x) (r x.peer) hallows hout (le_of_eq (congrArg List.length hqueue))
    ?_ ?_ ?_
  · rw [hsent]
    refine (h.leg x).settings hsnd hconv hsound.sized.mss_pos (by omega) (fun hs => ?_) rfl rfl
    rw [Bool.or_eq_false_iff] at hs
    exact ⟨hs.1, not_not.mp (of_decide_eq_false hs.2)⟩
  · rw [hreceived]
    exact (h.back x).congr rfl rfl rfl rfl hinc hack
  · rw [hinc]
    exact fun _ => id

theorem Inv.send (h : Inv conv s una r flushed) (x : Side) (buffer : List UInt8) :
    ∃ una r flushed, Inv conv (s.after x (.send buffer)) una r flushed := by
  obtain ⟨queue, n, hframe, hle, -⟩ := ikcpSend_frame (s.kcp x) buffer (h.sound x).sized.mss_pos
  refine h.quiet (una x) (r x.peer) trivial rfl ?_ ((h.leg x).send buffer).mode ?_ ?_
  · show (s.kcp x).sndQueue.length ≤ (ikcpSend (s.kcp x) buffer).1.sndQueue.length
    rw [hframe]
    exact hle
  · refine (h.back x).congr rfl rfl rfl rfl ?_ ?_
    · exact (congrArg Ikcpcb.incoming hframe).trans rfl
    · exact (congrArg Ikcpcb.acklist hframe).trans rfl
  · intro j hj
    show Held wireLimit (r x.peer) (ikcpSend (s.kcp x) buffer).1.incoming j
    rw [hframe]
    exact hj

theorem Inv.recv (h : Inv conv s una r flushed) (x : Side) (len : ℤ) :
    ∃ una r flushed, Inv conv (s.after x (.recv len)) una r flushed := by
  obtain ⟨_, _, _, _, _, _, hframe, -⟩ := ikcpRecv_frame (s.kcp x) len
  obtain ⟨r', -, hback, hheld⟩ := (h.back x).recv len
  refine h.quiet (una x) r' trivial rfl ?_ ?_ hback hheld
  · show (s.kcp x).sndQueue.length ≤ (ikcpRecv (s.kcp x) len).1.sndQueue.length
    rw [hframe]
  · refine Leg.mode ((h.leg x).congr ?_ ?_ ?_ ?_ rfl rfl)
    · exact (congrArg Ikcpcb.outgoing hframe).trans rfl
    · exact (congrArg Ikcpcb.conv hframe).trans rfl
    · exact (congrArg Ikcpcb.mss hframe).trans rfl
    · exact (congrArg Ikcpcb.stream hframe).trans rfl

theorem Inv.wndsize (h : Inv conv s una r flushed) {sndwnd rcvwnd : ℤ}
    (hallows : wireUsage.Allows (s.kcp x) (.wndsize sndwnd rcvwnd)) :
    ∃ una r flushed, Inv conv (s.after x (.wndsize sndwnd rcvwnd)) una r flushed := by
  have hsound := (h.sound x).wndsize hallows
  obtain ⟨_, hinb⟩ := hsound.inbound
  obtain ⟨sndWnd, rcvWnd, hframe⟩ : ∃ sndWnd rcvWnd, ikcpWndsize (s.kcp x) sndwnd rcvwnd =
      { s.kcp x with sndWnd := sndWnd, rcvWnd := rcvWnd } := by
    unfold ikcpWndsize
    dsimp only
    split_ifs <;> exact ⟨_, _, rfl⟩
  have hleast := hinb.least
  have hmost := hinb.most
  rw [hframe] at hleast hmost
  refine h.quiet (una x) (r x.peer) hallows rfl ?_ ?_ ?_ ?_
  · show (s.kcp x).sndQueue.length ≤ (ikcpWndsize (s.kcp x) sndwnd rcvwnd).sndQueue.length
    rw [hframe]
  · refine Leg.mode ((h.leg x).congr ?_ ?_ ?_ ?_ rfl rfl)
    · exact (congrArg Ikcpcb.outgoing hframe).trans rfl
    · exact (congrArg Ikcpcb.conv hframe).trans rfl
    · exact (congrArg Ikcpcb.mss hframe).trans rfl
    · exact (congrArg Ikcpcb.stream hframe).trans rfl
  · refine (h.back x).wndsize rcvWnd ?_ ?_ hleast hmost
    · exact (congrArg Ikcpcb.incoming hframe).trans rfl
    · exact (congrArg Ikcpcb.acklist hframe).trans rfl
  · intro j hj
    show Held wireLimit (r x.peer) (ikcpWndsize (s.kcp x) sndwnd rcvwnd).incoming j
    rw [hframe]
    exact hj

/-- **A datagram that arrives.** -/
theorem Inv.input (h : Inv conv s una r flushed) {data : List UInt8} (hdelivers : s.Delivers x data) :
    ∃ una r flushed, Inv conv (s.after x (.input data)) una r flushed := by
  obtain ⟨p, hp, rfl, htimely⟩ := hdelivers
  obtain ⟨segs, hne, hbytes, hsaid⟩ := h.said x.peer p hp
  rw [Side.peer_peer] at hsaid
  have hsession := (h.sound x).session
  have hok : ∀ seg ∈ segs, Acceptable (s.kcp x).conv seg := by
    rw [hsession]
    exact fun seg hseg => (hsaid seg hseg).acceptable
  obtain ⟨una', r', hleg, hback, hheld⟩ := inputSegs_legs segs
    { kcp := s.kcp x, flag := false, maxack := 0 } (h.leg x) (h.back x) hsaid
    (htimely x.peer) (htimely x)
  -- what the datagram does
  have hinput : (ikcpInput (s.kcp x) p.bytes).1 = inputEnd (s.kcp x).sndUna
      (inputSegs { kcp := s.kcp x, flag := false, maxack := 0 }
        (segs.map fun seg => (seg.header, seg.data))) := by
    rw [hbytes]
    exact ikcpInput_wires _ hne hok
  obtain ⟨_, _, _, hend, -⟩ := inputEnd_spec (s.kcp x).sndUna
    (inputSegs { kcp := s.kcp x, flag := false, maxack := 0 }
      (segs.map fun seg => (seg.header, seg.data)))
  have hleg' := hleg.inputEnd (s.kcp x).sndUna
  have hback' : Leg conv (s.kcp x.peer) (ikcpInput (s.kcp x) p.bytes).1 (s.hist x.peer)
      (una x.peer) r' (flushed x.peer) (s.sent x.peer) (s.received x) (s.streamed x.peer) := by
    refine hback.congr rfl rfl rfl rfl ?_ ?_
    · rw [hinput, hend]
      rfl
    · rw [hinput, hend]
  rw [← hinput] at hleg'
  refine h.quiet una' r' trivial rfl ?_ hleg'.mode hback' ?_
  · exact (congrArg List.length (sndQueue_ikcpInput (s.kcp x) p.bytes)).ge
  · intro j hj
    show Held wireLimit r' (ikcpInput (s.kcp x) p.bytes).1.incoming j
    rw [hinput, hend]
    exact hheld j hj

/-- **A flush.** -/
theorem Inv.flush (h : Inv conv s una r flushed) {call : Call} {kcp : Ikcpcb}
    (hallows : wireUsage.Allows (s.kcp x) call) (hrun : call.run (s.kcp x) = ikcpFlush kcp)
    (hupdated : kcp.updated ≠ 0)
    (hsent : call.sent (s.kcp x) (s.sent x) = s.sent x)
    (hreceived : call.received (s.kcp x) (s.received x) = s.received x)
    (hsnd : kcp.outgoing = (s.kcp x).outgoing) (hinc : kcp.incoming = (s.kcp x).incoming)
    (hack : kcp.acklist = (s.kcp x).acklist) (hconv : kcp.conv = (s.kcp x).conv)
    (hmss : kcp.mss = (s.kcp x).mss) (hstream : kcp.stream = (s.kcp x).stream) :
    ∃ una r flushed, Inv conv (s.after x call) una r flushed := by
  have hleg := (h.leg x).congr hsnd hconv hmss hstream rfl rfl
  have hback := (h.back x).congr rfl rfl rfl rfl hinc hack
  have hleg' := hleg.flush hupdated
  have hback' := hback.answered hupdated
  obtain ⟨-, -, -, hinc'⟩ := flush_settings kcp
  have hqueue : kcp.sndQueue = (s.kcp x).sndQueue := congrArg Outgoing.sndQueue hsnd
  rw [hqueue] at hleg'
  have hsound := (h.sound x).run hallows
  unfold Session.after
  dsimp only
  rw [hrun] at hsound ⊢
  rw [hsent, hreceived]
  refine h.call hsound hleg'.mode hback' ?_
    (h.back x).way.flushed_le ?_
  · rw [hinc', hinc]
    exact fun _ => id
  · intro d hd
    obtain ⟨segs, hbytes, hfits, hsegs⟩ := ikcpFlush_datagram hd
    refine ⟨segs, hfits.1, hbytes, fun seg hseg => ?_⟩
    rw [hinc']
    exact said_of_flush hleg' hback (hsegs seg hseg)

/-- **Every call at either end keeps the invariant.** -/
theorem Inv.step (h : Inv conv s una r flushed) {call : Call} (hallows : s.Allows x call) :
    ∃ una r flushed, Inv conv (s.after x call) una r flushed := by
  obtain ⟨husage, hdelivers⟩ := hallows
  cases call with
  | send buffer => exact h.send x buffer
  | recv len => exact h.recv x len
  | input data => exact h.input (hdelivers data rfl)
  | flush =>
    by_cases hupdated : (s.kcp x).updated = 0
    · have hrun : ikcpFlush (s.kcp x) = (s.kcp x, []) := by rw [ikcpFlush, if_pos hupdated]
      exact h.setting husage (congrArg Prod.snd hrun)
        (congrArg (fun result => result.1.outgoing) hrun)
        (congrArg (fun result => result.1.incoming) hrun)
        (congrArg (fun result => result.1.acklist) hrun) rfl rfl
    · exact h.flush husage rfl hupdated rfl rfl rfl rfl rfl rfl rfl rfl
  | update current =>
    obtain ⟨updated, tsFlush, hupdated, hrun | hrun⟩ := ikcpUpdate_cases (s.kcp x) current
    · exact h.flush husage hrun hupdated rfl rfl rfl rfl rfl rfl rfl rfl
    · exact h.setting husage (congrArg Prod.snd hrun)
        (congrArg (fun result => result.1.outgoing) hrun)
        (congrArg (fun result => result.1.incoming) hrun)
        (congrArg (fun result => result.1.acklist) hrun) rfl rfl
  | setmtu mtu =>
    have hframe : ∃ mtu' mss' bufferSize, (ikcpSetmtu (s.kcp x) mtu).1 =
        { s.kcp x with mtu := mtu', mss := mss', bufferSize := bufferSize } := by
      unfold ikcpSetmtu
      split <;> exact ⟨_, _, _, rfl⟩
    obtain ⟨_, _, _, hframe⟩ := hframe
    exact h.setting husage rfl ((congrArg Ikcpcb.outgoing hframe).trans rfl)
      ((congrArg Ikcpcb.incoming hframe).trans rfl)
      ((congrArg Ikcpcb.acklist hframe).trans rfl) rfl rfl
  | nodelay delay millisec resend nc =>
    obtain ⟨_, _, _, _, _, hframe⟩ := ikcpNodelay_frame (s.kcp x) delay millisec resend nc
    exact h.setting husage rfl ((congrArg Ikcpcb.outgoing hframe).trans rfl)
      ((congrArg Ikcpcb.incoming hframe).trans rfl)
      ((congrArg Ikcpcb.acklist hframe).trans rfl) rfl rfl
  | wndsize sndwnd rcvwnd => exact h.wndsize husage
  | interval millisec => exact h.setting husage rfl rfl rfl rfl rfl rfl
  | minrto value => exact h.setting husage rfl rfl rfl rfl rfl rfl
  | fastresend value => exact h.setting husage rfl rfl rfl rfl rfl rfl
  | stream value => exact h.setting husage rfl rfl rfl rfl rfl rfl

theorem inv_of_reachable (h : (session conv).Reachable s) :
    ∃ una r flushed, Inv conv s una r flushed := by
  refine h.invariant (P := fun s => ∃ una r flushed, Inv conv s una r flushed) ?_ ?_
  · rintro s rfl
    exact ⟨_, _, _, inv_start conv⟩
  · rintro s ⟨x, call⟩ s' ⟨una, r, flushed, hinv⟩ ⟨hallows, rfl⟩
    exact hinv.step hallows

/-! ## What follows -/

/-- Of three messages that the left end has sent in a datagram each, the first and the third have
arrived and have been acknowledged, and the first has been received. -/
def scattered : Session :=
  let sent := (Session.start 7).calls .left [.nodelay (-1) (-1) (-1) 1, .send [1], .update 0,
    .send [2], .flush, .send [3], .flush]
  let arrived := (sent.deliver .right ((sent.net .left).eraseIdx 1)).calls .right
    [.recv 10, .update 0]
  arrived.deliver .left (arrived.net .right)

theorem reachable_scattered : (session 7).Reachable scattered :=
  have hsent := Session.reachable_calls (.init rfl) (by decide)
  have harrived := Session.reachable_calls (Session.reachable_deliver hsent
    (fun _ hp => List.mem_of_mem_eraseIdx hp) fun y => by cases y <;> decide) (by decide)
  Session.reachable_deliver harrived (fun _ => id) fun y => by cases y <;> decide

/-- The second has been sent again, everything has arrived once more, and all three have been
received. -/
def conveyed : Session :=
  let sent := scattered.calls .left [.update 400]
  let arrived := (sent.deliver .right (sent.net .left)).calls .right
    [.recv 10, .recv 10, .update 400]
  arrived.deliver .left (arrived.net .right)

theorem reachable_conveyed : (session 7).Reachable conveyed :=
  have hsent := Session.reachable_calls reachable_scattered (by decide)
  have harrived := Session.reachable_calls (Session.reachable_deliver hsent (fun _ => id)
    fun y => by cases y <;> decide) (by decide)
  Session.reachable_deliver harrived (fun _ => id) fun y => by cases y <;> decide

/-- **Messages arrive once and in order**, over any network that loses, repeats and reorders: in
message mode, what one application has received is the beginning of what the other has
sent. -/
theorem session_prefix (h : (session conv).Reachable s) (x : Side) (hmode : s.streamed x = false) :
    s.received x.peer <+: s.sent x := by
  obtain ⟨una, r, flushed, hinv⟩ := inv_of_reachable h
  obtain ⟨groups, -, hmessages⟩ := (hinv.leg x).stream
  exact ⟨_, (hmessages hmode).2⟩

theorem session_prefix_scattered : scattered.received .right = [[1]] ∧
    scattered.sent .left = [[1], [2], [3]] ∧ scattered.received .right <+: scattered.sent .left :=
  ⟨by decide, by decide, session_prefix reachable_scattered .left (by decide)⟩

/-- **Bytes arrive once and in order**, in any mode. -/
theorem session_bytes (h : (session conv).Reachable s) (x : Side) :
    (s.received x.peer).flatten <+: (s.sent x).flatten := by
  obtain ⟨una, r, flushed, hinv⟩ := inv_of_reachable h
  obtain ⟨groups, hconveyed, -⟩ := (hinv.leg x).stream
  exact ⟨_, hconveyed.bytes⟩

/-- The left end has sent two messages in stream mode, and they have been received as one. -/
def streaming : Session :=
  let sent := (Session.start 7).calls .left [.nodelay (-1) (-1) (-1) 1, .stream 1, .send [1, 2],
    .send [3], .update 0]
  (sent.deliver .right (sent.net .left)).calls .right [.recv 10]

theorem reachable_streaming : (session 7).Reachable streaming :=
  have hsent := Session.reachable_calls (.init rfl) (by decide)
  Session.reachable_calls (Session.reachable_deliver hsent (fun _ => id)
    fun y => by cases y <;> decide) (by decide)

theorem session_bytes_streaming : streaming.received .right = [[1, 2, 3]] ∧
    streaming.sent .left = [[1, 2], [3]] ∧
    (streaming.received .right).flatten <+: (streaming.sent .left).flatten :=
  ⟨by decide, by decide, session_bytes reachable_streaming .left⟩

/-- **A segment stays until it has arrived**: each that has been numbered is before the other
end's `rcv_nxt`, in its `rcv_buf`, or still in `snd_buf`, with its data.  The index that
`rcv_nxt` is the serial number of is at most two windows behind the last that has been given. -/
theorem session_retained (h : (session conv).Reachable s) (x : Side) :
    ∃ r, (s.kcp x.peer).rcvNxt = BitVec.ofNat 32 r ∧
      (r ≤ (s.hist x).length ∧ (s.hist x).length ≤ r + 2 * 65535) ∧
      ∀ i seg, (s.hist x)[i]? = some seg → i < r ∨
        (∃ held ∈ (s.kcp x.peer).rcvBuf, held.sn = BitVec.ofNat 32 i ∧ held.bare = seg) ∨
        ∃ kept ∈ (s.kcp x).sndBuf, kept.sn = BitVec.ofNat 32 i ∧ kept.bare = seg := by
  obtain ⟨una, r, flushed, hinv⟩ := inv_of_reachable h
  have hway := (hinv.leg x).way
  have hflight : (s.hist x).length ≤ una x + wireLimit := hway.outbound.flight
  refine ⟨r x, hway.inbound.rcvNxt, ⟨hway.arrived_le, hway.ahead⟩, fun i seg hseg => ?_⟩
  have hi : i < (s.hist x).length := (List.getElem?_eq_some_iff.mp hseg).1
  have hbare {seg' : Ikcpseg} (hgen : Genuine (s.hist x) i seg') : seg'.bare = seg :=
    Option.some.inj (hgen.symm.trans hseg)
  rcases hway.cover i hi with ⟨hge, kept, hkept, hkey⟩ | ⟨-, hlt | ⟨hlt, held, hheld, hkey⟩⟩
  · obtain ⟨k, hk₁, hk₂, hkeyk, hsendable⟩ := hway.outbound.window.index kept hkept
    obtain rfl : i = k := Serial.eq_of_ofNat_eq (w := 32)
      (by unfold wireLimit at hflight; constructor <;> omega) (hkey.symm.trans hkeyk)
    exact .inr (.inr ⟨kept, hkept, hkey, hbare hsendable.1⟩)
  · exact .inl hlt
  · rcases Nat.lt_or_ge i (r x) with hir | hri
    · exact .inl hir
    obtain ⟨k, hk₁, hk₂, hkeyk, hgen⟩ := hway.inbound.window.index held hheld
    obtain rfl : i = k := Serial.eq_of_ofNat_eq (hway.inbound.near hri hlt hk₁ hk₂)
      (hkey.symm.trans hkeyk)
    exact .inr (.inl ⟨held, hheld, hkey, hbare hgen⟩)

/-- One has been received, one waits for its turn, and one is kept. -/
theorem session_retained_scattered :
    (scattered.hist .left).map (·.data) = [[1], [2], [3]] ∧ (scattered.kcp .right).rcvNxt = 1 ∧
      (scattered.kcp .right).rcvBuf.map (·.sn) = [2] ∧
      (scattered.kcp .left).sndBuf.map (·.sn) = [1] ∧
      ∃ r, (scattered.kcp .right).rcvNxt = BitVec.ofNat 32 r ∧
        (r ≤ (scattered.hist .left).length ∧ (scattered.hist .left).length ≤ r + 2 * 65535) ∧
        ∀ i seg, (scattered.hist .left)[i]? = some seg → i < r ∨
          (∃ held ∈ (scattered.kcp .right).rcvBuf, held.sn = BitVec.ofNat 32 i ∧ held.bare = seg) ∨
          ∃ kept ∈ (scattered.kcp .left).sndBuf, kept.sn = BitVec.ofNat 32 i ∧ kept.bare = seg :=
  ⟨by decide, by decide, by decide, by decide, session_retained reachable_scattered .left⟩

/-- **Nothing is lost**: when `ikcp_waitsnd` is 0 at one end, which has not let 2 ^ 32 segments
wait, and `ikcp_peeksize` finds no message at the other, all that was sent has been received. -/
theorem session_complete (h : (session conv).Reachable s) (x : Side)
    (hfew : (s.kcp x).sndBuf.length + (s.kcp x).sndQueue.length < 2 ^ 32)
    (hwait : ikcpWaitsnd (s.kcp x) = 0) (hpeek : ikcpPeeksize (s.kcp x.peer) < 0) :
    (s.received x.peer).flatten = (s.sent x).flatten ∧
      (s.streamed x = false → s.received x.peer = s.sent x) := by
  obtain ⟨una, r, flushed, hinv⟩ := inv_of_reachable h
  have hout := (hinv.leg x).way.outbound
  have hbuf : (s.kcp x).nsndBuf = BitVec.ofNat 32 (s.kcp x).sndBuf.length := hout.nsndBuf
  have hque : (s.kcp x).nsndQue = BitVec.ofNat 32 (s.kcp x).sndQueue.length := hout.nsndQue
  rw [ikcpWaitsnd, hbuf, hque, ← BitVec.ofNat_add] at hwait
  -- the sum has not run over
  have hnone : (s.kcp x).sndBuf.length + (s.kcp x).sndQueue.length = 0 := by
    have hzero := congrArg BitVec.toNat (BitVec.toInt_inj.mp (hwait.trans BitVec.toInt_zero.symm))
    rwa [Serial.toNat_ofNat_of_lt hfew] at hzero
  exact (hinv.leg x).complete (List.eq_nil_of_length_eq_zero (by omega))
    (List.eq_nil_of_length_eq_zero (by omega)) hpeek

theorem session_complete_conveyed :
    ikcpWaitsnd (conveyed.kcp .left) = 0 ∧ ikcpPeeksize (conveyed.kcp .right) = -1 ∧
      conveyed.received .right = [[1], [2], [3]] ∧
      conveyed.received .right = conveyed.sent .left :=
  ⟨by decide, by decide, by decide,
    (session_complete reachable_conveyed .left (by decide) (by decide) (by decide)).2 (by decide)⟩

/-- **The receive queue never fills up with an incomplete message**: when it holds as many
segments as the least window has, `ikcp_recv` has a message to hand out. -/
theorem session_unblocked (h : (session conv).Reachable s) (x : Side) :
    (s.kcp x).rcvQueue.length < 128 ∨ 0 ≤ ikcpPeeksize (s.kcp x) := by
  obtain ⟨una, r, flushed, hinv⟩ := inv_of_reachable h
  rcases Nat.lt_or_ge (s.kcp x).rcvQueue.length 128 with hroom | hfull
  · exact .inl hroom
  · exact .inr ((hinv.back x).unblocked hfull)

/-- The left end has sent a message of 127 fragments and an empty one, each fragment in a datagram,
and all of them have arrived. -/
def brimming : Session :=
  let set := ((Session.start 7).after .left (.wndsize 128 128)).after .left (.setmtu 50)
  let sent := set.calls .left [.nodelay (-1) (-1) (-1) 1, .send (List.replicate 3302 0), .send [],
    .update 0]
  sent.deliver .right (sent.net .left)

theorem reachable_brimming : (session 7).Reachable brimming :=
  have hset : (session 7).Reachable
      (((Session.start 7).after .left (.wndsize 128 128)).after .left (.setmtu 50)) :=
    .step (l := (.left, .setmtu 50)) (.step (l := (.left, .wndsize 128 128)) (.init rfl)
      ⟨⟨⟨by decide, by decide⟩, fun _ heq => by cases heq⟩, rfl⟩)
      ⟨⟨⟨by decide, by decide⟩, fun _ heq => by cases heq⟩, rfl⟩
  have hsent := Session.reachable_calls hset (by decide)
  Session.reachable_deliver hsent (fun _ => id) fun y => by cases y <;> decide +kernel

/-- The queue is as full as the window lets it be. -/
theorem session_unblocked_brimming : (brimming.kcp .right).rcvQueue.length = 128 ∧
    0 ≤ ikcpPeeksize (brimming.kcp .right) := by
  have hfull : (brimming.kcp .right).rcvQueue.length = 128 := by decide +kernel
  refine ⟨hfull, (session_unblocked reachable_brimming .right).resolve_left ?_⟩
  omega

end Kcp
end UnixNetwork
