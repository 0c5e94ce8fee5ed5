import Mathlib.Order.Interval.Finset.Nat
import Mathlib.Data.Set.Finite.Lattice
import UnixNetwork.Bytes.Block
import UnixNetwork.Multiplex.Descriptors
import UnixNetwork.Transition.Loop

/-!
# Transfers of a fixed length

`Readn` and `Writen` of `webserver/wrap.cpp`, as loops over what `read` and `write` give.

Each keeps a pointer and the number of bytes left, and each call moves as many bytes as
the kernel likes, at most those left.  What a call may come to is an `CallResult`; for how
many bytes it moves then, the bytes asked for count, and for `read` those that the stream
still has.  `read` returns `0` when there are none.

The invariants are `Writen.Inv` and `Readn.Inv`: the pointer and the number of bytes left
add up to the length, and the bytes before the pointer are the ones that went through.
-/

namespace UnixNetwork
namespace WebServer

open Bytes Progress
open Multiplex (EINTR)

/-- What a call may come to: it moves bytes, this many at most, or returns `-1`. -/
inductive CallResult where
  | moves (most : ℕ)
  | fail (errno : ℕ)
  deriving DecidableEq

namespace CallResult

/-- The call is interrupted, or moves something. -/
def Short : CallResult → Prop
  | .moves most => 0 < most
  | .fail errno => errno = EINTR

instance : (o : CallResult) → Decidable o.Short
  | .moves most => inferInstanceAs (Decidable (0 < most))
  | .fail errno => inferInstanceAs (Decidable (errno = EINTR))

end CallResult

/-- A sequence in which only finitely many calls are interrupted has, from any point on,
one that is not. -/
theorem exists_uninterrupted {σ : ℕ → CallResult} (h : {i | σ i = .fail EINTR}.Finite) (m : ℕ) :
    ∃ k, m ≤ k ∧ σ k ≠ .fail EINTR := by
  obtain ⟨k, hk, hmk⟩ := h.infinite_compl.exists_gt m
  exact ⟨k, hmk.le, hk⟩

/-! ## `Writen` -/

namespace Writen

/-- Where the loop is, with all that is in the file. -/
structure State where
  file : List UInt8
  ptr : ℕ
  nleft : ℕ

/-- `while (nleft > 0)`, and what follows it. -/
def loop (n : ℕ) (s : State) : Progress State (ℤ × List UInt8) :=
  if 0 < s.nleft then .running s else .returned (n, s.file)

/-- One round. -/
def body (data : List UInt8) (s : State) : CallResult → Progress State (ℤ × List UInt8)
  | .moves most =>
    let nwritten := min most s.nleft
    if nwritten = 0 then .returned (-1, s.file)
    else
      loop data.length ⟨s.file ++ (data.drop s.ptr).take nwritten, s.ptr + nwritten,
        s.nleft - nwritten⟩
  | .fail errno => if errno = EINTR then loop data.length s else .returned (-1, s.file)

/-- What was written stands behind what was in the file, and is what `ptr` has passed. -/
structure Inv (data file : List UInt8) (s : State) : Prop where
  length_eq : s.ptr + s.nleft = data.length
  file_eq : s.file = file ++ data.take s.ptr

theorem Inv.move {data file : List UInt8} {s : State} (h : Inv data file s) {k : ℕ}
    (hk : k ≤ s.nleft) :
    Inv data file ⟨s.file ++ (data.drop s.ptr).take k, s.ptr + k, s.nleft - k⟩ where
  length_eq := by
    have := h.length_eq
    show s.ptr + k + (s.nleft - k) = data.length
    omega
  file_eq := by
    show s.file ++ (data.drop s.ptr).take k = file ++ data.take (s.ptr + k)
    rw [h.file_eq, List.append_assoc, List.take_add]

/-- How the loop stands: it goes on, or has written everything, or a call has failed. -/
def Holds (data file : List UInt8) : Progress State (ℤ × List UInt8) → Prop
  | .running s => Inv data file s ∧ 0 < s.nleft
  | .returned (ret, file') => ret = data.length ∧ file' = file ++ data ∨ ret = -1

theorem holds_loop {data file : List UInt8} {s : State} (h : Inv data file s) :
    Holds data file (loop data.length s) := by
  unfold loop
  split
  · exact ⟨h, ‹_›⟩
  · have hlen := h.length_eq
    refine .inl ⟨rfl, ?_⟩
    rw [h.file_eq, List.take_of_length_le (by omega)]

theorem holds_body {data file : List UInt8} {s : State} (h : Inv data file s) (o : CallResult) :
    Holds data file (body data s o) := by
  cases o with
  | moves most =>
    simp only [body]
    split
    · exact .inr rfl
    · exact holds_loop (h.move (min_le_right _ _))
  | fail errno =>
    simp only [body]
    split
    · exact holds_loop h
    · exact .inr rfl

theorem eq_of_loop {n : ℕ} {s s' : State} (h : loop n s = .running s') : s' = s :=
  (ite_eq_running_iff.mp h).2.symm

/-- Only an interruption leaves as much to write as before. -/
theorem nleft_le {data : List UInt8} {s s' : State} {o : CallResult}
    (h : body data s o = .running s') :
    s'.nleft ≤ s.nleft ∧ (o ≠ .fail EINTR → s'.nleft < s.nleft) := by
  cases o with
  | moves most =>
    simp only [body] at h
    split at h
    · cases h
    · rw [eq_of_loop h]
      refine ⟨Nat.sub_le _ _, fun _ => ?_⟩
      show s.nleft - min most s.nleft < s.nleft
      omega
  | fail errno =>
    simp only [body] at h
    split at h
    · rename_i he
      rw [eq_of_loop h]
      exact ⟨le_rfl, fun hne => absurd (congrArg CallResult.fail he) hne⟩
    · cases h

theorem loop_ne_fail (n : ℕ) (s : State) (file' : List UInt8) :
    loop n s ≠ .returned (-1, file') := by
  unfold loop
  split
  · exact fun h => nomatch h
  · intro h
    have : (n : ℤ) = -1 := congrArg Prod.fst (Progress.returned.inj h)
    omega

/-- Short outcomes do not make it fail. -/
theorem body_ne_fail {data : List UInt8} {s : State} {o : CallResult} (ho : o.Short)
    (hs : 0 < s.nleft) (file' : List UInt8) : body data s o ≠ .returned (-1, file') := by
  cases o with
  | moves most =>
    have hmost : 0 < most := ho
    simp only [body]
    rw [if_neg (by omega)]
    exact loop_ne_fail _ _ _
  | fail errno =>
    have he : errno = EINTR := ho
    simp only [body]
    rw [if_pos he]
    exact loop_ne_fail _ _ _

end Writen

/-- `Writen(fd, data, n)`, after so many calls of `write`, for a file with something in it. -/
def writen (data file : List UInt8) (σ : ℕ → CallResult) (m : ℕ) :
    Progress Writen.State (ℤ × List UInt8) :=
  after (Writen.body data) (Writen.loop data.length ⟨file, 0, data.length⟩) σ m

theorem writen_holds (data file : List UInt8) (σ : ℕ → CallResult) (m : ℕ) :
    Writen.Holds data file (writen data file σ m) := by
  refine after_invariant (Writen.holds_loop ⟨Nat.zero_add _, ?_⟩) (fun m s _ hs => ?_) m
  · show file = file ++ data.take 0
    rw [List.take_zero, List.append_nil]
  · exact Writen.holds_body hs.1 _

/-- **A write through short counts and interruptions.** -/
theorem writen_of_short {data file : List UInt8} {σ : ℕ → CallResult} (hshort : ∀ i, (σ i).Short)
    (hfin : {i | σ i = .fail EINTR}.Finite) :
    ∃ m, ∀ k, m ≤ k → writen data file σ k = .returned (data.length, file ++ data) := by
  have hne : ∀ m file', writen data file σ m ≠ .returned (-1, file') := by
    intro m file'
    refine after_invariant (P := fun p => p ≠ .returned (-1, file')) (Writen.loop_ne_fail _ _ _)
      (fun m s h _ => ?_) m
    have hs := writen_holds data file σ m
    rw [writen, h] at hs
    exact Writen.body_ne_fail (hshort m) hs.2 file'
  have hret : ∃ m r, writen data file σ m = .returned r :=
    exists_returned Writen.State.nleft (· ≠ .fail EINTR) (fun _ _ _ _ h => (Writen.nleft_le h).1)
      (fun _ _ _ _ hgood h => (Writen.nleft_le h).2 hgood) (exists_uninterrupted hfin)
  obtain ⟨m, ⟨ret, file'⟩, hm⟩ := hret
  have hholds := writen_holds data file σ m
  rw [hm] at hholds
  obtain ⟨rfl, rfl⟩ | rfl := hholds
  · exact ⟨m, fun k hk => after_of_returned hm hk⟩
  · exact absurd hm (hne m file')

/-- **A write that fails.** -/
theorem writen_of_not_short {data file : List UInt8} {σ : ℕ → CallResult} {m : ℕ} {s : Writen.State}
    (h : writen data file σ m = .running s) (hbad : ¬ (σ m).Short) :
    ∃ sent, writen data file σ (m + 1) = .returned (-1, file ++ sent) ∧ sent <+: data ∧
      sent ≠ data := by
  have hs := writen_holds data file σ m
  rw [h] at hs
  obtain ⟨⟨hlen, hfile⟩, hpos⟩ := hs
  refine ⟨data.take s.ptr, ?_, List.take_prefix _ _, fun hall => ?_⟩
  · rw [← hfile, writen, after_succ h]
    cases ho : σ m with
    | moves most =>
      rw [ho] at hbad
      have hzero : most = 0 := Nat.eq_zero_of_not_pos hbad
      simp [Writen.body, hzero]
    | fail errno =>
      rw [ho] at hbad
      exact if_neg hbad
  · have := congrArg List.length hall
    rw [List.length_take] at this
    omega

/-! ## `Readn` -/

namespace Readn

/-- Where the loop is, with what is in `vptr` and what the stream still has. -/
structure State where
  buf : List UInt8
  stream : List UInt8
  ptr : ℕ
  nleft : ℕ

/-- What it leaves. -/
structure Result where
  ret : ℤ
  buf : List UInt8
  stream : List UInt8
  deriving DecidableEq

/-- `return n - nleft`. -/
def leave (n : ℕ) (s : State) : Result := ⟨n - s.nleft, s.buf, s.stream⟩

/-- `while (nleft > 0)`, and what follows it. -/
def loop (n : ℕ) (s : State) : Progress State Result :=
  if 0 < s.nleft then .running s else .returned (leave n s)

/-- One round. -/
def body (n : ℕ) (s : State) : CallResult → Progress State Result
  | .moves most =>
    let nread := min most (min s.nleft s.stream.length)
    if nread = 0 then .returned (leave n s)
    else
      loop n ⟨overwrite s.buf s.ptr (s.stream.take nread), s.stream.drop nread, s.ptr + nread,
        s.nleft - nread⟩
  | .fail errno => if errno = EINTR then loop n s else .returned ⟨-1, s.buf, s.stream⟩

/-- What `k` bytes off a stream leave. -/
def done (buf stream : List UInt8) (k : ℕ) : Result :=
  ⟨k, stream.take k ++ buf.drop k, stream.drop k⟩

/-- What `ptr` has passed is the front of the stream, and the rest is as it was. -/
structure Inv (n : ℕ) (buf stream : List UInt8) (s : State) : Prop where
  length_eq : s.ptr + s.nleft = n
  ptr_le : s.ptr ≤ stream.length
  buf_eq : s.buf = stream.take s.ptr ++ buf.drop s.ptr
  stream_eq : s.stream = stream.drop s.ptr

theorem Inv.move {n : ℕ} {buf stream : List UInt8} {s : State} (h : Inv n buf stream s) {k : ℕ}
    (hk : k ≤ s.nleft) (hk' : k ≤ s.stream.length) :
    Inv n buf stream ⟨overwrite s.buf s.ptr (s.stream.take k), s.stream.drop k, s.ptr + k,
      s.nleft - k⟩ := by
  obtain ⟨hlen, hptr, hbuf, hstream⟩ := h
  have hfront : (stream.take s.ptr).length = s.ptr := List.length_take_of_le hptr
  have hmoved : (s.stream.take k).length = k := List.length_take_of_le hk'
  refine ⟨?_, ?_, ?_, ?_⟩
  · show s.ptr + k + (s.nleft - k) = n
    omega
  · show s.ptr + k ≤ stream.length
    rw [hstream, List.length_drop] at hk'
    omega
  · show overwrite s.buf s.ptr (s.stream.take k) = stream.take (s.ptr + k) ++ buf.drop (s.ptr + k)
    rw [overwrite, hmoved, hbuf, List.take_left' hfront, ← List.drop_drop, List.drop_left' hfront,
      List.drop_drop, hstream, List.take_add]
  · show s.stream.drop k = stream.drop (s.ptr + k)
    rw [hstream, List.drop_drop]

/-- How the loop stands: it goes on, or has read all there is to read. -/
def Holds (n : ℕ) (buf stream : List UInt8) : Progress State Result → Prop
  | .running s => Inv n buf stream s ∧ 0 < s.nleft
  | .returned r => r = done buf stream (min n stream.length)

theorem leave_eq {n : ℕ} {buf stream : List UInt8} {s : State} (h : Inv n buf stream s)
    (hend : s.nleft = 0 ∨ s.stream = []) : leave n s = done buf stream (min n stream.length) := by
  obtain ⟨hlen, hptr, hbuf, hstream⟩ := h
  have hmin : min n stream.length = s.ptr := by
    obtain hzero | hnil := hend
    · omega
    · have := congrArg List.length (hstream.symm.trans hnil)
      rw [List.length_drop, List.length_nil] at this
      omega
  have hret : (n : ℤ) - s.nleft = s.ptr := by omega
  rw [leave, done, hmin, hret, hbuf, hstream]

theorem holds_loop {n : ℕ} {buf stream : List UInt8} {s : State} (h : Inv n buf stream s) :
    Holds n buf stream (loop n s) := by
  unfold loop
  split
  · exact ⟨h, ‹_›⟩
  · exact leave_eq h (.inl (Nat.eq_zero_of_not_pos ‹_›))

theorem holds_body {n : ℕ} {buf stream : List UInt8} {s : State} (h : Inv n buf stream s)
    (hpos : 0 < s.nleft) {o : CallResult} (ho : o.Short) : Holds n buf stream (body n s o) := by
  cases o with
  | moves most =>
    have hmost : 0 < most := ho
    simp only [body]
    split
    · -- a count of 0, so the stream has ended
      exact leave_eq h (.inr (List.length_eq_zero_iff.mp (by omega)))
    · exact holds_loop (h.move (by omega) (by omega))
  | fail errno =>
    have he : errno = EINTR := ho
    simp only [body]
    rw [if_pos he]
    exact holds_loop h

theorem eq_of_loop {n : ℕ} {s s' : State} (h : loop n s = .running s') : s' = s :=
  (ite_eq_running_iff.mp h).2.symm

/-- Only an interruption leaves as much to read as before. -/
theorem nleft_le {n : ℕ} {s s' : State} {o : CallResult} (h : body n s o = .running s') :
    s'.nleft ≤ s.nleft ∧ (o ≠ .fail EINTR → s'.nleft < s.nleft) := by
  cases o with
  | moves most =>
    simp only [body] at h
    split at h
    · cases h
    · rw [eq_of_loop h]
      refine ⟨Nat.sub_le _ _, fun _ => ?_⟩
      show s.nleft - min most (min s.nleft s.stream.length) < s.nleft
      omega
  | fail errno =>
    simp only [body] at h
    split at h
    · rename_i he
      rw [eq_of_loop h]
      exact ⟨le_rfl, fun hne => absurd (congrArg CallResult.fail he) hne⟩
    · cases h

end Readn

/-- `Readn(fd, buf, n)`, after so many calls of `read`, from a stream. -/
def readn (n : ℕ) (buf stream : List UInt8) (σ : ℕ → CallResult) (m : ℕ) :
    Progress Readn.State Readn.Result :=
  after (Readn.body n) (Readn.loop n ⟨buf, stream, 0, n⟩) σ m

theorem readn_holds (n : ℕ) (buf stream : List UInt8) {σ : ℕ → CallResult}
    (hshort : ∀ i, (σ i).Short) (m : ℕ) : Readn.Holds n buf stream (readn n buf stream σ m) := by
  refine after_invariant (Readn.holds_loop ⟨Nat.zero_add n, Nat.zero_le _, rfl, rfl⟩)
    (fun m s _ hs => ?_) m
  exact Readn.holds_body hs.1 hs.2 (hshort m)

/-- **A read through short counts and interruptions.** -/
theorem readn_of_short (n : ℕ) (buf stream : List UInt8) {σ : ℕ → CallResult}
    (hshort : ∀ i, (σ i).Short) (hfin : {i | σ i = .fail EINTR}.Finite) :
    ∃ m, ∀ k, m ≤ k →
      readn n buf stream σ k = .returned (Readn.done buf stream (min n stream.length)) := by
  have hret : ∃ m r, readn n buf stream σ m = .returned r :=
    exists_returned Readn.State.nleft (· ≠ .fail EINTR) (fun _ _ _ _ h => (Readn.nleft_le h).1)
      (fun _ _ _ _ hgood h => (Readn.nleft_le h).2 hgood) (exists_uninterrupted hfin)
  obtain ⟨m, r, hm⟩ := hret
  have hr := readn_holds n buf stream hshort m
  rw [hm] at hr
  exact ⟨m, fun k hk => (after_of_returned hm hk).trans (congrArg Progress.returned hr)⟩

/-- **A read that fails.** -/
theorem readn_of_fail {n : ℕ} {buf stream : List UInt8} {σ : ℕ → CallResult} {m errno : ℕ}
    {s : Readn.State} (h : readn n buf stream σ m = .running s) (ho : σ m = .fail errno)
    (hne : errno ≠ EINTR) : ∃ r, readn n buf stream σ (m + 1) = .returned r ∧ r.ret = -1 := by
  refine ⟨⟨-1, s.buf, s.stream⟩, ?_, rfl⟩
  rw [readn, after_succ h, ho]
  exact if_neg hne

end WebServer
end UnixNetwork
