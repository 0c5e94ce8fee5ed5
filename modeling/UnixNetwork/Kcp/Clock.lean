import UnixNetwork.Kcp.Endpoint
import Mathlib.Order.Bounds.Basic

/-!
# The clock

`ikcp_update` is called with the time in milliseconds, cut to 32 bits, and flushes when
the time it has set itself (`ts_flush`) has come.  `ikcp_check` tells the program how
long it may sleep.

`ikcpCheck_isLeast` is what `ikcp_check` computes, on a clock that may run over: the
least delay after which a flush is due, a segment has timed out, or an interval has
gone by.  A program that sleeps as long as it says loses nothing (`ikcpCheck_exact`).
The converse fails: at the time when a segment has timed out, `ikcp_update` does nothing
either, unless a flush is due.

`endpoint_scheduled` is the other half: after any calls the next flush is ahead, and at
most ten seconds.
-/

namespace UnixNetwork
namespace Kcp

/-- Whether `ikcp_update` flushes at a time. -/
def Flushes (kcp : Ikcpcb) (current : IUINT32) : Prop :=
  kcp.updated = 0 ∨ 0 ≤ itimediff current kcp.tsFlush ∨ itimediff current kcp.tsFlush < -10000

variable {kcp : Ikcpcb} {current : IUINT32}

/-- When it does not, it only takes the time. -/
theorem ikcpUpdate_of_not_flushes (h : ¬ Flushes kcp current) :
    ikcpUpdate kcp current = ({ kcp with current := current }, []) := by
  unfold Flushes at h
  rw [not_or, not_or, not_le, not_lt] at h
  obtain ⟨hupdated, hneg, hnear⟩ := h
  unfold ikcpUpdate
  dsimp only
  rw [if_neg hupdated]
  dsimp only
  have hlate : ¬ (10000 ≤ itimediff current kcp.tsFlush ∨ itimediff current kcp.tsFlush < -10000) := by
    omega
  rw [if_neg hlate, if_neg hlate, if_neg (not_le.mpr hneg)]

theorem itimediff_self (current : IUINT32) : itimediff current current = 0 := by
  rw [itimediff, Serial.diff, BitVec.sub_self, BitVec.toInt_zero]

/-- The next time that `ikcp_update` sets itself is ahead, by no more than an interval. -/
theorem next_ahead {tsFlush interval : IUINT32} (hpos : 0 < interval.toNat)
    (hlt : interval.toNat < 2 ^ 31) (hslap : 0 ≤ itimediff current tsFlush)
    (hnear : itimediff current tsFlush < 10000) :
    let next := if 0 ≤ itimediff current (tsFlush + interval) then current + interval
      else tsFlush + interval
    0 < itimediff next current ∧ itimediff next current ≤ interval.toNat := by
  have hback : itimediff tsFlush current = -itimediff current tsFlush :=
    Serial.diff_comm (by unfold itimediff at *; omega)
  have hinterval : interval = BitVec.ofNat 32 interval.toNat := by
    rw [BitVec.ofNat_toNat, BitVec.setWidth_eq]
  have hself := itimediff_self current
  have hright :
      itimediff current (tsFlush + interval) = itimediff current tsFlush - interval.toNat := by
    unfold itimediff at *
    conv_lhs => rw [hinterval]
    exact Serial.diff_add_right (by omega) (by omega)
  have hleft (base : IUINT32) (hbase : itimediff base current ≤ 0)
      (hbase' : -10000 < itimediff base current) :
      itimediff (base + interval) current = itimediff base current + interval.toNat := by
    unfold itimediff at *
    conv_lhs => rw [hinterval]
    exact Serial.diff_add_left (by omega) (by omega)
  dsimp only
  split
  · rw [hleft current (by omega) (by omega), hself]
    omega
  · rename_i hnot
    rw [hleft tsFlush (by omega) (by omega)]
    omega

/-- When it does, it flushes, and the next time is ahead. -/
theorem ikcpUpdate_of_flushes (h : Flushes kcp current) (hpos : 0 < kcp.interval.toNat)
    (hlt : kcp.interval.toNat < 2 ^ 31) :
    ∃ updated tsFlush, updated ≠ 0 ∧ ikcpUpdate kcp current =
        ikcpFlush { kcp with current := current, updated := updated, tsFlush := tsFlush } ∧
      0 < itimediff tsFlush current ∧ itimediff tsFlush current ≤ kcp.interval.toNat := by
  have hself := itimediff_self current
  have hnow := next_ahead hpos hlt (show 0 ≤ itimediff current current from le_of_eq hself.symm)
    (by omega)
  unfold ikcpUpdate
  dsimp only
  by_cases hupdated : kcp.updated = 0
  · rw [if_pos hupdated]
    dsimp only
    have hlate : ¬ ((10000 : ℤ) ≤ 0 ∨ (0 : ℤ) < -10000) := by decide
    rw [hself, if_neg hlate, if_neg hlate, if_pos le_rfl]
    exact ⟨1, _, by decide, rfl, hnow⟩
  rw [if_neg hupdated]
  dsimp only
  by_cases hlate : 10000 ≤ itimediff current kcp.tsFlush ∨ itimediff current kcp.tsFlush < -10000
  · rw [if_pos hlate, if_pos hlate, if_pos le_rfl]
    exact ⟨kcp.updated, _, hupdated, rfl, hnow⟩
  · have hslap : 0 ≤ itimediff current kcp.tsFlush := by
      rcases h with hzero | hge | hfar
      · exact absurd hzero hupdated
      · exact hge
      · exact absurd (.inr hfar) hlate
    have hnear : itimediff current kcp.tsFlush < 10000 := by omega
    rw [if_neg hlate, if_neg hlate, if_pos hslap]
    exact ⟨kcp.updated, _, hupdated, rfl, next_ahead hpos hlt hslap hnear⟩

/-! ## `ikcp_check` -/

/-- The loop of `ikcp_check` finds the segment that is due first, or one that is due. -/
theorem checkLoop_spec (current : IUINT32) (segs : List Ikcpseg) (bound : ℤ) :
    (checkLoop current segs bound = none ∧ ∃ seg ∈ segs, itimediff seg.resendts current ≤ 0) ∨
      ∃ tm, checkLoop current segs bound = some tm ∧
        (∀ seg ∈ segs, 0 < itimediff seg.resendts current ∧ tm ≤ itimediff seg.resendts current) ∧
        tm ≤ bound ∧ (tm = bound ∨ ∃ seg ∈ segs, tm = itimediff seg.resendts current) := by
  induction segs generalizing bound with
  | nil => exact .inr ⟨bound, rfl, fun _ h => absurd h List.not_mem_nil, le_rfl, .inl rfl⟩
  | cons a rest ih =>
    unfold checkLoop
    dsimp only
    split
    · rename_i hdue
      exact .inl ⟨rfl, a, List.mem_cons_self, hdue⟩
    rename_i hahead
    obtain ⟨least, hleast⟩ : ∃ least : ℤ, (if itimediff a.resendts current < bound
        then itimediff a.resendts current else bound) = least := ⟨_, rfl⟩
    have hle : least ≤ itimediff a.resendts current ∧ least ≤ bound ∧
        (least = bound ∨ least = itimediff a.resendts current) := by
      split at hleast <;> omega
    rw [hleast]
    rcases ih least with ⟨hnone, seg, hseg, hdue⟩ | ⟨tm, htm, hall, hbound, hwhich⟩
    · exact .inl ⟨hnone, seg, List.mem_cons_of_mem a hseg, hdue⟩
    refine .inr ⟨tm, htm, ?_, hbound.trans hle.2.1, ?_⟩
    · intro seg hseg
      rcases List.mem_cons.mp hseg with rfl | hseg
      · exact ⟨not_le.mp hahead, hbound.trans hle.1⟩
      · exact hall seg hseg
    · rcases hwhich with rfl | ⟨seg, hseg, heq⟩
      · exact hle.2.2.imp_right fun heq => ⟨a, List.mem_cons_self, heq⟩
      · exact .inr ⟨seg, List.mem_cons_of_mem a hseg, heq⟩

/-- What a program that sleeps may be waiting for, after a delay: a flush is due, a segment has
timed out, or an interval has gone by. -/
def Waking (kcp : Ikcpcb) (current : IUINT32) (delay : ℕ) : Prop :=
  Flushes kcp (current + BitVec.ofNat 32 delay) ∨
    (∃ seg ∈ kcp.sndBuf, itimediff seg.resendts (current + BitVec.ofNat 32 delay) ≤ 0) ∨
    delay = kcp.interval.toNat

/-- When no flush is due, the next one is ahead, and near. -/
theorem ahead_of_not_flushes (h : ¬ Flushes kcp current) :
    kcp.updated ≠ 0 ∧ 0 < itimediff kcp.tsFlush current ∧ itimediff kcp.tsFlush current ≤ 10000 ∧
      itimediff current kcp.tsFlush = -itimediff kcp.tsFlush current := by
  unfold Flushes at h
  rw [not_or, not_or, not_le, not_lt] at h
  obtain ⟨hupdated, hneg, hnear⟩ := h
  have hback : itimediff kcp.tsFlush current = -itimediff current kcp.tsFlush :=
    Serial.diff_comm (by unfold itimediff at *; omega)
  exact ⟨hupdated, by omega, by omega, by omega⟩

/-- Until then, a flush becomes due at that time and not before. -/
theorem flushes_after_iff (h : ¬ Flushes kcp current) {delay : ℕ}
    (hle : (delay : ℤ) ≤ itimediff kcp.tsFlush current) :
    Flushes kcp (current + BitVec.ofNat 32 delay) ↔ (delay : ℤ) = itimediff kcp.tsFlush current := by
  obtain ⟨hupdated, hpos, hnear, hback⟩ := ahead_of_not_flushes h
  have hadd : itimediff (current + BitVec.ofNat 32 delay) kcp.tsFlush =
      itimediff current kcp.tsFlush + delay := by
    unfold itimediff at *
    exact Serial.diff_add_left (by omega) (by omega)
  unfold Flushes
  rw [hadd, hback]
  constructor
  · rintro (hzero | hge | hfar)
    · exact absurd hzero hupdated
    · omega
    · omega
  · intro heq
    exact .inr (.inl (by omega))

/-- The same of the timer of a segment. -/
theorem due_after_iff {resendts : IUINT32} (hpos : 0 < itimediff resendts current) {delay : ℕ}
    (hle : (delay : ℤ) ≤ itimediff resendts current) :
    itimediff resendts (current + BitVec.ofNat 32 delay) ≤ 0 ↔
      (delay : ℤ) = itimediff resendts current := by
  have hlt : 2 * itimediff resendts current < 2 ^ 32 := BitVec.two_mul_toInt_lt
  have hsub : itimediff resendts (current + BitVec.ofNat 32 delay) =
      itimediff resendts current - delay := by
    unfold itimediff at *
    exact Serial.diff_add_right (by omega) (by omega)
  rw [hsub]
  omega

/-- `ikcp_check` says now when a flush is due, -/
theorem ikcpCheck_of_flushes (h : Flushes kcp current) : ikcpCheck kcp current = current := by
  unfold ikcpCheck
  split
  · rfl
  rename_i hupdated
  dsimp only
  refine if_pos ?_
  split
  · exact le_of_eq (itimediff_self current).symm
  · rename_i hlate
    rcases h with hzero | hge | hfar
    · exact absurd hzero hupdated
    · exact hge
    · exact absurd (.inr hfar) hlate

/-- and otherwise when its loop finds a segment that is due, or by what the loop has found. -/
theorem ikcpCheck_of_not_flushes (h : ¬ Flushes kcp current) :
    (checkLoop current kcp.sndBuf 0x7fffffff = none → ikcpCheck kcp current = current) ∧
      ∀ tm, checkLoop current kcp.sndBuf 0x7fffffff = some tm →
        ikcpCheck kcp current = current +
          imin kcp.interval (BitVec.ofInt 32 (min tm (itimediff kcp.tsFlush current))) := by
  obtain ⟨hupdated, hpos, hnear, hback⟩ := ahead_of_not_flushes h
  have hlate : ¬ (10000 ≤ itimediff current kcp.tsFlush ∨ itimediff current kcp.tsFlush < -10000) := by
    omega
  unfold ikcpCheck
  rw [if_neg hupdated]
  dsimp only
  rw [if_neg hlate, if_neg (by omega)]
  refine ⟨fun hnone => by rw [hnone], fun tm htm => ?_⟩
  have hmin : (if tm < itimediff kcp.tsFlush current then tm else itimediff kcp.tsFlush current) =
      min tm (itimediff kcp.tsFlush current) := by
    split <;> omega
  rw [htm, ← hmin]
  rfl

/-- **What `ikcp_check` computes when nothing is due**: the least of the interval, the time to the
next flush and the timers. -/
theorem ikcpCheck_eq_min (h : ¬ Flushes kcp current)
    (hahead : ∀ seg ∈ kcp.sndBuf, 0 < itimediff seg.resendts current) :
    ∃ first : ℕ, (first : ℤ) ≤ itimediff kcp.tsFlush current ∧
      (∀ seg ∈ kcp.sndBuf, (first : ℤ) ≤ itimediff seg.resendts current) ∧
      ((first : ℤ) = itimediff kcp.tsFlush current ∨
        ∃ seg ∈ kcp.sndBuf, (first : ℤ) = itimediff seg.resendts current) ∧
      (ikcpCheck kcp current - current).toNat = min kcp.interval.toNat first := by
  obtain ⟨-, hpos, hnear, -⟩ := ahead_of_not_flushes h
  rcases checkLoop_spec current kcp.sndBuf 0x7fffffff with
    ⟨-, seg, hseg, hdue⟩ | ⟨tm, htm, hall, hbound, hwhich⟩
  · exact absurd (hahead seg hseg) (not_lt.mpr hdue)
  have htmpos : 0 < tm := by
    rcases hwhich with rfl | ⟨seg, hseg, rfl⟩
    · decide
    · exact hahead seg hseg
  obtain ⟨first, hfirst⟩ : ∃ first : ℕ, min tm (itimediff kcp.tsFlush current) = first :=
    ⟨_, (Int.toNat_of_nonneg (by omega)).symm⟩
  refine ⟨first, by omega, fun seg hseg => ?_, ?_, ?_⟩
  · have := (hall seg hseg).2
    omega
  · rcases hwhich with hfull | ⟨seg, hseg, htimer⟩
    · exact .inl (by omega)
    · rcases Int.le_total (itimediff kcp.tsFlush current) tm with hle | hle
      · exact .inl (by omega)
      · exact .inr ⟨seg, hseg, by omega⟩
  · have htoNat : (BitVec.ofInt 32 (first : ℤ)).toNat = first := by
      rw [BitVec.toNat_ofInt]
      omega
    rw [(ikcpCheck_of_not_flushes h).2 tm htm, hfirst, BitVec.add_comm, BitVec.add_sub_cancel, imin]
    split
    · rename_i hle
      rw [BitVec.le_def, htoNat] at hle
      omega
    · rename_i hgt
      rw [BitVec.le_def, htoNat] at hgt
      omega

/-- `ikcp_check` is the least delay, whatever the clock and the timers are. -/
theorem ikcpCheck_isLeast (kcp : Ikcpcb) (current : IUINT32) :
    IsLeast {delay | Waking kcp current delay} (ikcpCheck kcp current - current).toNat := by
  have hzero : current + BitVec.ofNat 32 0 = current := BitVec.add_zero current
  -- when it is time now
  have hnow (heq : ikcpCheck kcp current = current) (h : Waking kcp current 0) :
      IsLeast {delay | Waking kcp current delay} (ikcpCheck kcp current - current).toNat := by
    rw [heq, BitVec.sub_self]
    exact ⟨h, fun _ _ => Nat.zero_le _⟩
  by_cases hflushes : Flushes kcp current
  · refine hnow (ikcpCheck_of_flushes hflushes) (.inl ?_)
    rwa [hzero]
  by_cases hdue : ∃ seg ∈ kcp.sndBuf, itimediff seg.resendts current ≤ 0
  · refine hnow ?_ (.inr (.inl (by rwa [hzero])))
    rcases checkLoop_spec current kcp.sndBuf 0x7fffffff with ⟨hnone, -⟩ | ⟨tm, -, hall, -⟩
    · exact (ikcpCheck_of_not_flushes hflushes).1 hnone
    · obtain ⟨seg, hseg, hle⟩ := hdue
      exact absurd (hall seg hseg).1 (not_lt.mpr hle)
  have hahead : ∀ seg ∈ kcp.sndBuf, 0 < itimediff seg.resendts current := fun seg hseg =>
    not_le.mp fun hle => hdue ⟨seg, hseg, hle⟩
  obtain ⟨first, hflush, htimers, hwhich, hcheck⟩ := ikcpCheck_eq_min hflushes hahead
  rw [hcheck]
  constructor
  · show Waking kcp current _
    rcases Nat.le_total kcp.interval.toNat first with hle | hle
    · rw [Nat.min_eq_left hle]
      exact .inr (.inr rfl)
    rw [Nat.min_eq_right hle]
    rcases hwhich with heq | ⟨seg, hseg, heq⟩
    · exact .inl ((flushes_after_iff hflushes hflush).mpr heq)
    · exact .inr (.inl ⟨seg, hseg,
        (due_after_iff (hahead seg hseg) (htimers seg hseg)).mpr heq⟩)
  · intro delay hdelay
    by_contra hlt
    have hfirst : (delay : ℤ) < first := by omega
    rcases hdelay with hfl | ⟨seg, hseg, hle⟩ | hinterval
    · have := (flushes_after_iff hflushes (by omega)).mp hfl
      omega
    · have hseg' := htimers seg hseg
      have := (due_after_iff (hahead seg hseg) (by omega)).mp hle
      omega
    · omega

/-- **`ikcp_check` says when to call `ikcp_update`**, whatever the clock and the timers are: there is
a reason to at the time it says, and there is none before, when `ikcp_update` would do nothing
but take the time. -/
theorem ikcpCheck_exact (kcp : Ikcpcb) (current : IUINT32) :
    Waking kcp current (ikcpCheck kcp current - current).toNat ∧
      ∀ delay < (ikcpCheck kcp current - current).toNat, ¬ Waking kcp current delay ∧
        ikcpUpdate kcp (current + BitVec.ofNat 32 delay) =
          ({ kcp with current := current + BitVec.ofNat 32 delay }, []) := by
  obtain ⟨hwaking, hleast⟩ := ikcpCheck_isLeast kcp current
  refine ⟨hwaking, fun delay hdelay => ?_⟩
  have hearly : ¬ Waking kcp current delay := fun h => absurd (hleast h) (Nat.not_le.mpr hdelay)
  exact ⟨hearly, ikcpUpdate_of_not_flushes fun hflushes => hearly (.inl hflushes)⟩

/-! ## The next flush -/

variable {conv : IUINT32} {usage : Usage}

/-- What the clock is, and what it has been set to. -/
def Ikcpcb.clock (kcp : Ikcpcb) : IUINT32 × IUINT32 × IUINT32 :=
  (kcp.current, kcp.tsFlush, kcp.updated)

theorem clock_inputSeg (st : InputState) (h : Header) (data : List UInt8) :
    (inputSeg st h data).kcp.clock = st.kcp.clock := by
  obtain ⟨_, _, _, harr, -⟩ := arrival_spec st.kcp h
  rcases inputSeg_cases st h data with ⟨-, heq⟩ | ⟨-, heq⟩ | ⟨-, -, _, heq⟩ <;> rw [heq]
  · obtain ⟨_, _, _, _, _, _, hack, -⟩ := inputAck_spec { st with kcp := arrival st.kcp h } h.sn h.ts
    rw [hack, harr]
    rfl
  · obtain ⟨_, _, _, _, _, hpush⟩ := inputPush_frame (arrival st.kcp h) h data
    rw [hpush, harr]
    rfl
  · rw [harr]
    rfl

theorem clock_ikcpFlush (kcp : Ikcpcb) : (ikcpFlush kcp).1.clock = kcp.clock := by
  by_cases hupdated : kcp.updated = 0
  · rw [ikcpFlush, if_pos hupdated]
  · obtain ⟨_, _, _, _, _, _, _, _, _, -, -, -, -, -, heq⟩ := ikcpFlush_spec hupdated
    rw [heq]
    rfl

/-- Only `ikcp_update` writes the clock. -/
theorem clock_run (hsound : Sound conv usage kcp) {call : Call}
    (hcall : ∀ current, call ≠ .update current) : (call.run kcp).1.clock = kcp.clock := by
  cases call with
  | send buffer =>
    obtain ⟨_, _, hframe, -⟩ := ikcpSend_frame kcp buffer hsound.sized.mss_pos
    exact (congrArg Ikcpcb.clock hframe).trans rfl
  | recv len =>
    obtain ⟨_, _, _, _, _, _, hframe, -⟩ := ikcpRecv_frame kcp len
    exact (congrArg Ikcpcb.clock hframe).trans rfl
  | input data =>
    refine ikcpInput_invariant (P := fun kcp' => kcp'.clock = kcp.clock) ?_ ?_ rfl data
    · intro st h data hst
      exact (clock_inputSeg st h data).trans hst
    · intro prevUna st hst
      obtain ⟨_, _, _, heq, -⟩ := inputEnd_spec prevUna st
      rw [heq]
      exact hst
  | flush => exact clock_ikcpFlush kcp
  | update current => exact absurd rfl (hcall current)
  | setmtu mtu =>
    show (ikcpSetmtu kcp mtu).1.clock = _
    unfold ikcpSetmtu
    split <;> rfl
  | nodelay delay millisec resend nc =>
    obtain ⟨_, _, _, _, _, hframe⟩ := ikcpNodelay_frame kcp delay millisec resend nc
    exact (congrArg Ikcpcb.clock hframe).trans rfl
  | wndsize sndwnd rcvwnd =>
    show (ikcpWndsize kcp sndwnd rcvwnd).clock = _
    unfold ikcpWndsize
    dsimp only
    split_ifs <;> rfl
  | _ => rfl

/-- **The next flush is ahead**: after any calls, once `ikcp_update` has been called, the time it
has set itself has not come yet and comes within ten seconds. -/
theorem endpoint_scheduled (h : (endpoint conv usage).Reachable kcp) (hupdated : kcp.updated ≠ 0) :
    0 < itimediff kcp.tsFlush kcp.current ∧ itimediff kcp.tsFlush kcp.current ≤ 10000 := by
  revert hupdated
  induction h with
  | init hinit =>
    intro hupdated
    rw [hinit] at hupdated
    exact absurd rfl hupdated
  | @step kcp kcp' call hreach hstep ih =>
    obtain ⟨hallows, rfl⟩ := hstep
    have hsound := sound_of_reachable hreach
    have hge := hsound.tuned.interval_ge
    have hle := hsound.tuned.interval_le
    intro hupdated
    by_cases hcall : ∃ current, call = .update current
    swap
    · have hclock := clock_run hsound fun current heq => hcall ⟨current, heq⟩
      simp only [Ikcpcb.clock, Prod.mk.injEq] at hclock
      obtain ⟨hcurrent, htsFlush, hsame⟩ := hclock
      rw [hcurrent, htsFlush]
      exact ih (hsame ▸ hupdated)
    obtain ⟨current, rfl⟩ := hcall
    show 0 < itimediff (ikcpUpdate kcp current).1.tsFlush (ikcpUpdate kcp current).1.current ∧ _
    by_cases hflushes : Flushes kcp current
    · obtain ⟨_, tsFlush, -, heq, hpos, hnext⟩ :=
        ikcpUpdate_of_flushes hflushes (by omega) (by omega)
      have hclock := congrArg (fun r => r.1.clock) heq
      rw [clock_ikcpFlush] at hclock
      simp only [Ikcpcb.clock, Prod.mk.injEq] at hclock
      show _ ∧ itimediff (ikcpUpdate kcp current).1.tsFlush (ikcpUpdate kcp current).1.current ≤ _
      rw [hclock.1, hclock.2.1]
      exact ⟨hpos, by omega⟩
    · show _ ∧ itimediff (ikcpUpdate kcp current).1.tsFlush (ikcpUpdate kcp current).1.current ≤ _
      rw [ikcpUpdate_of_not_flushes hflushes]
      obtain ⟨-, hpos, hnear, -⟩ := ahead_of_not_flushes hflushes
      exact ⟨hpos, hnear⟩

theorem endpoint_scheduled_timed : itimediff timed.tsFlush timed.current = 100 ∧
    0 < itimediff timed.tsFlush timed.current ∧ itimediff timed.tsFlush timed.current ≤ 10000 :=
  ⟨by decide, endpoint_scheduled (reachable_timed wireUsage) (by decide)⟩

end Kcp
end UnixNetwork
