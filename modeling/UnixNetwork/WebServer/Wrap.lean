import UnixNetwork.Bytes.Block

/-!
# Reading lines

`my_read` and `Readline` of `webserver/wrap.cpp`.

`my_read` hands out single bytes from a static buffer of 100 bytes, which it fills
by `read`.  There is one such buffer for the whole process, whatever descriptor
the bytes came from.  `MyRead` is the static variables; that `read_ptr` and
`read_cnt` never leave `read_buf` is part of it.

What the kernel gives is, for each descriptor, the list of the results of the
`read` calls on it still to come; behind the end of the list it is end of file
again and again.  An end of file inside the list is one that did not persist, say
because the descriptor was closed and given out again.

`Moves` is what a piece of reading comes to: it takes results off one
descriptor's list, and the bytes buffered before together with the bytes of those
results are the bytes it gave out followed by the bytes buffered after.  Pieces of
reading compose, so the same is true of `my_read`, of `Readline`, and of any number
of calls.

`Has` says what a descriptor has to give before anything but data can happen, and
`readlineLoop_has` that `Readline` then takes a line of it, however `read` cuts it
into pieces.
-/

namespace UnixNetwork
namespace WebServer

open Bytes

/-- A file descriptor, an `int`. -/
abbrev Fd := ℤ

/-- What `read(fd, read_buf, 100)` can return. -/
inductive ReadResult where
  | data (bytes : List UInt8) (ne_nil : bytes ≠ []) (length_le : bytes.length ≤ 100)
  | eof
  | eintr
  | eagain
  | fail

/-- The bytes that come with a result. -/
def ReadResult.bytes : ReadResult → List UInt8
  | .data bytes _ _ => bytes
  | _ => []

/-- The bytes that come with a list of results. -/
def delivered (results : List ReadResult) : List UInt8 :=
  (results.map ReadResult.bytes).flatten

/-- The static variables of `my_read`. -/
structure MyRead where
  readCnt : ℤ
  readPtr : ℕ
  readBuf : Block UInt8 100
  inBounds : readPtr + readCnt.toNat ≤ 100

namespace MyRead

/-- Before the first call. -/
def start : MyRead := ⟨0, 0, Block.zero 100, by decide⟩

/-- `read_cnt` as `read` sets it when there is nothing to hand out. -/
def setCnt (m : MyRead) (cnt : ℤ) (h : cnt ≤ 0) : MyRead :=
  { m with readCnt := cnt, inBounds := by have := m.inBounds; omega }

/-- `read_buf` and `read_cnt` as `read` sets them, and `read_ptr` at the front. -/
def fill (m : MyRead) (bytes : List UInt8) (h : bytes.length ≤ 100) : MyRead :=
  ⟨bytes.length, 0, m.readBuf.storeFront bytes h, by simpa using h⟩

/-- `*read_ptr`. -/
def head (m : MyRead) (h : 0 < m.readCnt) : UInt8 :=
  m.readBuf.get ⟨m.readPtr, by have := m.inBounds; omega⟩

/-- `read_cnt--` and `read_ptr++`. -/
def tail (m : MyRead) (h : 0 < m.readCnt) : MyRead :=
  ⟨m.readCnt - 1, m.readPtr + 1, m.readBuf, by have := m.inBounds; omega⟩

/-- The bytes not handed out yet. -/
def pending (m : MyRead) : List UInt8 := (m.readBuf.toList.drop m.readPtr).take m.readCnt.toNat

theorem pending_of_nonpos {m : MyRead} (h : m.readCnt ≤ 0) : m.pending = [] := by
  rw [pending, Int.toNat_of_nonpos h, List.take_zero]

theorem pending_fill (m : MyRead) (bytes : List UInt8) (h : bytes.length ≤ 100) :
    (m.fill bytes h).pending = bytes := by
  have : (m.fill bytes h).pending = (m.readBuf.storeFront bytes h).toList.take bytes.length := rfl
  rw [this, Block.take_storeFront]

theorem pending_eq_cons (m : MyRead) (h : 0 < m.readCnt) :
    m.pending = m.head h :: (m.tail h).pending := by
  have hb := m.inBounds
  have hlt : m.readPtr < m.readBuf.toList.length := by
    rw [m.readBuf.toList_length]
    omega
  obtain ⟨k, hk⟩ : ∃ k, m.readCnt.toNat = k + 1 := ⟨m.readCnt.toNat - 1, by omega⟩
  have hk' : (m.readCnt - 1).toNat = k := by omega
  have hhead : m.head h = m.readBuf.toList[m.readPtr] := List.Vector.get_eq_get_toList _ _
  show (m.readBuf.toList.drop m.readPtr).take m.readCnt.toNat =
    m.head h :: (m.readBuf.toList.drop (m.readPtr + 1)).take (m.readCnt - 1).toNat
  rw [hk, hk', List.drop_eq_getElem_cons hlt, List.take_succ_cons, hhead]

end MyRead

/-- The process, and the kernel as far as it reads. -/
structure State where
  static : MyRead
  input : Fd → List ReadResult

/-- `my_read`'s return value, with the byte behind `ptr` when it is `1`. -/
inductive Rc where
  | one (c : UInt8)
  | zero
  | error

/-- The byte handed out, if there is one. -/
def Rc.bytes : Rc → List UInt8
  | .one c => [c]
  | _ => []

/-! ## The code -/

/-- How the `again` loop is left: `my_read` returns, or there are bytes again. -/
inductive Again where
  | stop (rc : Rc) (m : MyRead)
  | filled (m : MyRead) (h : 0 < m.readCnt)

/-- The `again` loop, with the results that are left. -/
def again (m : MyRead) : List ReadResult → Again × List ReadResult
  | [] => (.stop .zero (m.setCnt 0 (by decide)), [])
  | .eintr :: rest => again (m.setCnt (-1) (by decide)) rest
  | .eof :: rest => (.stop .zero (m.setCnt 0 (by decide)), rest)
  | .eagain :: rest => (.stop .error (m.setCnt (-1) (by decide)), rest)
  | .fail :: rest => (.stop .error (m.setCnt (-1) (by decide)), rest)
  | .data bytes hne hlen :: rest =>
    (.filled (m.fill bytes hlen) (Int.natCast_pos.mpr (List.length_pos_iff.mpr hne)), rest)

/-- `my_read(fd, ptr)`. -/
def myRead (s : State) (fd : Fd) : Rc × State :=
  if h : 0 < s.static.readCnt then
    (.one (s.static.head h), { s with static := s.static.tail h })
  else
    match again s.static (s.input fd) with
    | (.stop rc m, rest) => (rc, ⟨m, Function.update s.input fd rest⟩)
    | (.filled m h, rest) => (.one (m.head h), ⟨m.tail h, Function.update s.input fd rest⟩)

/-- What a call of `Readline` leaves: its return value, and the bytes it stored.
Unless it returns `-1` it has stored a `0` behind them. -/
structure Line where
  ret : ℤ
  stored : List UInt8
  deriving DecidableEq

/-- The loop of `Readline`, with the number of rounds `n < maxlen` still allows
and the bytes stored so far: `n` is one more than there are. -/
def readlineLoop (fd : Fd) : ℕ → List UInt8 → State → Line × State
  | 0, stored, s => (⟨stored.length + 1, stored⟩, s)
  | k + 1, stored, s =>
    match myRead s fd with
    | (.one c, s) =>
      if c = 10 then (⟨stored.length + 1, stored ++ [c]⟩, s)
      else readlineLoop fd k (stored ++ [c]) s
    | (.zero, s) => (⟨stored.length, stored⟩, s)
    | (.error, s) => (⟨-1, stored⟩, s)

/-- `Readline(fd, vptr, maxlen)`. -/
def readline (s : State) (fd : Fd) (maxlen : ℕ) : Line × State :=
  readlineLoop fd (maxlen - 1) [] s

/-! ## What reading does -/

/-- Reading from one descriptor, which gave out `out`. -/
structure Moves (fd : Fd) (s s' : State) (out : List UInt8) : Prop where
  others : ∀ fd', fd' ≠ fd → s'.input fd' = s.input fd'
  bytes : ∃ consumed, s.input fd = consumed ++ s'.input fd ∧
    s.static.pending ++ delivered consumed = out ++ s'.static.pending

namespace Moves

variable {fd : Fd} {s s' s'' : State} {out out' : List UInt8}

theorem refl (fd : Fd) (s : State) : Moves fd s s [] :=
  ⟨fun _ _ => rfl, [], rfl, by rw [delivered]; simp⟩

theorem trans (h : Moves fd s s' out) (h' : Moves fd s' s'' out') :
    Moves fd s s'' (out ++ out') := by
  obtain ⟨consumed, hin, hbytes⟩ := h.bytes
  obtain ⟨consumed', hin', hbytes'⟩ := h'.bytes
  refine ⟨fun fd' hne => (h'.others fd' hne).trans (h.others fd' hne), consumed ++ consumed', ?_, ?_⟩
  · rw [hin, hin', List.append_assoc]
  · calc s.static.pending ++ delivered (consumed ++ consumed')
        = s.static.pending ++ delivered consumed ++ delivered consumed' := by
          rw [delivered, List.map_append, List.flatten_append, ← List.append_assoc]
          rfl
      _ = out ++ (s'.static.pending ++ delivered consumed') := by
          rw [hbytes, List.append_assoc]
      _ = out ++ out' ++ s''.static.pending := by rw [hbytes', List.append_assoc]

end Moves

/-- The `again` loop: what it leaves in the buffer is what the results it took
delivered, and if it stops there is nothing. -/
theorem again_spec (m : MyRead) (results : List ReadResult) :
    ∃ consumed, results = consumed ++ (again m results).2 ∧
      match (again m results).1 with
      | .stop rc m' => rc.bytes = [] ∧ m'.readCnt ≤ 0 ∧ delivered consumed = []
      | .filled m' _ => delivered consumed = m'.pending := by
  induction results generalizing m with
  | nil => exact ⟨[], rfl, rfl, le_rfl, rfl⟩
  | cons result rest ih =>
    cases result with
    | data bytes hne hlen =>
      refine ⟨[.data bytes hne hlen], rfl, ?_⟩
      show delivered [.data bytes hne hlen] = (m.fill bytes hlen).pending
      rw [m.pending_fill]
      exact List.append_nil bytes
    | eof => exact ⟨[.eof], rfl, rfl, le_rfl, rfl⟩
    | eintr =>
      obtain ⟨consumed, hin, hspec⟩ := ih (m.setCnt (-1) (by decide))
      exact ⟨.eintr :: consumed, congrArg (ReadResult.eintr :: ·) hin, hspec⟩
    | eagain => exact ⟨[.eagain], rfl, rfl, (by decide : (-1 : ℤ) ≤ 0), rfl⟩
    | fail => exact ⟨[.fail], rfl, rfl, (by decide : (-1 : ℤ) ≤ 0), rfl⟩

/-- **`my_read` moves a byte**, and when it has none to give the buffer is
empty. -/
theorem myRead_spec (s : State) (fd : Fd) :
    Moves fd s (myRead s fd).2 (myRead s fd).1.bytes ∧
      ((myRead s fd).1.bytes = [] → (myRead s fd).2.static.readCnt ≤ 0) := by
  unfold myRead
  by_cases h : 0 < s.static.readCnt
  · rw [dif_pos h]
    refine ⟨⟨fun _ _ => rfl, [], rfl, ?_⟩, fun hnil => absurd hnil (List.cons_ne_nil _ _)⟩
    show s.static.pending ++ [] = s.static.head h :: (s.static.tail h).pending
    rw [List.append_nil, s.static.pending_eq_cons h]
  · rw [dif_neg h]
    have hpending := MyRead.pending_of_nonpos (not_lt.mp h)
    obtain ⟨consumed, hin, hspec⟩ := again_spec s.static (s.input fd)
    rcases hagain : again s.static (s.input fd) with ⟨⟨rc, m⟩ | ⟨m, hm⟩, rest⟩
    · rw [hagain] at hin hspec
      obtain ⟨hrc, hcnt, hdel⟩ := hspec
      refine ⟨⟨fun fd' hne => Function.update_of_ne hne _ _, consumed, ?_, ?_⟩, fun _ => hcnt⟩
      · show s.input fd = consumed ++ Function.update s.input fd rest fd
        rw [Function.update_self]
        exact hin
      · show s.static.pending ++ delivered consumed = rc.bytes ++ m.pending
        rw [hpending, hdel, hrc, MyRead.pending_of_nonpos hcnt]
    · rw [hagain] at hin hspec
      refine ⟨⟨fun fd' hne => Function.update_of_ne hne _ _, consumed, ?_, ?_⟩,
        fun hnil => absurd hnil (List.cons_ne_nil _ _)⟩
      · show s.input fd = consumed ++ Function.update s.input fd rest fd
        rw [Function.update_self]
        exact hin
      · show s.static.pending ++ delivered consumed = m.head hm :: (m.tail hm).pending
        rw [hpending, ← m.pending_eq_cons hm]
        exact hspec

/-- The loop of `Readline` moves the bytes it stores.  If it returns nothing or an
error, `my_read` has just come back without a byte and the buffer is empty; else
it has stored a byte. -/
theorem readlineLoop_spec (fd : Fd) (k : ℕ) (stored : List UInt8) (s : State)
    (hk : k = 0 → stored ≠ []) :
    (∃ more, (readlineLoop fd k stored s).1.stored = stored ++ more ∧
      Moves fd s (readlineLoop fd k stored s).2 more) ∧
    ((readlineLoop fd k stored s).1.ret ≤ 0 →
      (readlineLoop fd k stored s).2.static.readCnt ≤ 0) ∧
    (0 < (readlineLoop fd k stored s).1.ret → (readlineLoop fd k stored s).1.stored ≠ []) := by
  induction k generalizing stored s with
  | zero =>
    refine ⟨⟨[], (List.append_nil stored).symm, Moves.refl fd s⟩, ?_, fun _ => hk rfl⟩
    intro hret
    have : (stored.length : ℤ) + 1 ≤ 0 := hret
    omega
  | succ k ih =>
    have hspec := myRead_spec s fd
    rw [readlineLoop]
    rcases hread : myRead s fd with ⟨c | _ | _, s'⟩ <;> rw [hread] at hspec <;> dsimp only
    · obtain ⟨hmoves, -⟩ := hspec
      by_cases hc : c = 10
      · rw [if_pos hc]
        refine ⟨⟨[c], rfl, hmoves⟩, ?_, fun _ => List.append_ne_nil_of_right_ne_nil _ (by simp)⟩
        intro hret
        have : (stored.length : ℤ) + 1 ≤ 0 := hret
        omega
      · rw [if_neg hc]
        obtain ⟨⟨more, hstored, hmore⟩, hrest⟩ := ih (stored ++ [c]) s'
          fun _ => List.append_ne_nil_of_right_ne_nil _ (by simp)
        refine ⟨⟨c :: more, ?_, hmoves.trans hmore⟩, hrest⟩
        rw [hstored, List.append_assoc, List.singleton_append]
    · refine ⟨⟨[], (List.append_nil stored).symm, hspec.1⟩, fun _ => hspec.2 rfl, ?_⟩
      rintro hret rfl
      exact absurd hret (by decide)
    · refine ⟨⟨[], (List.append_nil stored).symm, hspec.1⟩, fun _ => hspec.2 rfl, ?_⟩
      intro hret
      exact absurd hret (by decide)

/-- **`Readline`**, with room for at least one byte and the terminator. -/
theorem readline_spec (s : State) (fd : Fd) (maxlen : ℕ) (h : 2 ≤ maxlen) :
    Moves fd s (readline s fd maxlen).2 (readline s fd maxlen).1.stored ∧
      ((readline s fd maxlen).1.ret ≤ 0 → (readline s fd maxlen).2.static.readCnt ≤ 0) ∧
      (0 < (readline s fd maxlen).1.ret → (readline s fd maxlen).1.stored ≠ []) := by
  obtain ⟨⟨more, hstored, hmoves⟩, hrest⟩ := readlineLoop_spec fd (maxlen - 1) [] s
    fun h0 => absurd h0 (by omega)
  refine ⟨?_, hrest⟩
  rw [List.nil_append] at hstored
  rw [readline, hstored]
  exact hmoves

/-- All the bytes a descriptor still has to give, buffered or not. -/
def available (s : State) (fd : Fd) : ℕ :=
  s.static.pending.length + (delivered (s.input fd)).length

/-- What reading gives out is taken from what is available. -/
theorem Moves.available {fd : Fd} {s s' : State} {out : List UInt8} (h : Moves fd s s' out) :
    available s fd = out.length + available s' fd := by
  obtain ⟨consumed, hin, hbytes⟩ := h.bytes
  have hlen := congrArg List.length hbytes
  have hdel : delivered (s.input fd) = delivered consumed ++ delivered (s'.input fd) := by
    rw [hin, delivered, List.map_append, List.flatten_append]
    rfl
  rw [List.length_append, List.length_append] at hlen
  rw [WebServer.available, WebServer.available, hdel, List.length_append]
  omega

/-! ## Lines of a stream -/

/-- The beginning of a stream up to its first newline, at most `k` bytes. -/
def takeLine : ℕ → List UInt8 → List UInt8
  | 0, _ => []
  | _ + 1, [] => []
  | k + 1, c :: stream => if c = 10 then [c] else c :: takeLine k stream

theorem takeLine_isPrefix (k : ℕ) (stream : List UInt8) : takeLine k stream <+: stream := by
  induction k generalizing stream with
  | zero => exact List.nil_prefix
  | succ k ih =>
    cases stream with
    | nil => exact List.nil_prefix
    | cons c stream =>
      rw [takeLine]
      split
      · exact List.prefix_cons_inj c |>.mpr List.nil_prefix
      · exact List.prefix_cons_inj c |>.mpr (ih stream)

/-- A first part without newline, if there is room for it. -/
theorem takeLine_append {l : List UInt8} (h : (10 : UInt8) ∉ l) (k : ℕ) (stream : List UInt8) :
    takeLine (l.length + k) (l ++ stream) = l ++ takeLine k stream := by
  induction l with
  | nil => rw [List.length_nil, Nat.zero_add, List.nil_append, List.nil_append]
  | cons c l ih =>
    rw [List.mem_cons, not_or] at h
    rw [List.length_cons, Nat.add_right_comm, List.cons_append, takeLine, if_neg (Ne.symm h.1),
      ih h.2, List.cons_append]

/-- A byte that a first part does not have is only in the line if all of the part
is. -/
theorem of_mem_takeLine {c : UInt8} {l stream : List UInt8} {k : ℕ} (hc : c ∉ l)
    (h : c ∈ takeLine k (l ++ stream)) : l.length < k ∧ (c ≠ 10 → (10 : UInt8) ∉ l) := by
  induction l generalizing k with
  | nil =>
    cases k with
    | zero => cases h
    | succ k => exact ⟨Nat.succ_pos k, fun _ => List.not_mem_nil⟩
  | cons d l ih =>
    rw [List.mem_cons, not_or] at hc
    cases k with
    | zero => cases h
    | succ k =>
      rw [List.cons_append, takeLine] at h
      split at h
      · rw [List.mem_singleton] at h
        exact absurd h hc.1
      · rename_i hd
        have hmem := (List.mem_cons.mp h).resolve_left hc.1
        obtain ⟨hlen, hnl⟩ := ih hc.2 hmem
        refine ⟨by rw [List.length_cons]; omega, fun hne => ?_⟩
        rw [List.mem_cons, not_or]
        exact ⟨Ne.symm hd, hnl hne⟩

/-- A result after which `my_read` goes on. -/
def ReadResult.Flows : ReadResult → Prop
  | .data _ _ _ => True
  | .eintr => True
  | _ => False

/-- The descriptor has `stream` to give, buffered or in results still to come,
whatever follows. -/
def Has (fd : Fd) (s : State) (stream : List UInt8) : Prop :=
  ∃ pieces rest, s.input fd = pieces ++ rest ∧ (∀ r ∈ pieces, r.Flows) ∧
    s.static.pending ++ delivered pieces = stream

/-- The `again` loop, on pieces that deliver something. -/
theorem again_flows (m : MyRead) (rest : List ReadResult) {pieces : List ReadResult}
    (hflow : ∀ r ∈ pieces, r.Flows) (hne : delivered pieces ≠ []) :
    ∃ m' h pieces', again m (pieces ++ rest) = (.filled m' h, pieces' ++ rest) ∧
      (∀ r ∈ pieces', r.Flows) ∧ m'.pending ++ delivered pieces' = delivered pieces := by
  induction pieces generalizing m with
  | nil => exact absurd rfl hne
  | cons result pieces ih =>
    have hflow' : ∀ r ∈ pieces, r.Flows := fun r hr => hflow r (List.mem_cons_of_mem _ hr)
    cases result with
    | data bytes hbytes hlen =>
      exact ⟨_, _, pieces, rfl, hflow', by rw [m.pending_fill]; rfl⟩
    | eintr => exact ih _ hflow' hne
    | eof => exact (hflow _ List.mem_cons_self).elim
    | eagain => exact (hflow _ List.mem_cons_self).elim
    | fail => exact (hflow _ List.mem_cons_self).elim

/-- `my_read` gives the next byte of what is buffered and still to come, and leaves what
follows alone. -/
theorem myRead_pieces {fd : Fd} {s : State} {c : UInt8} {stream : List UInt8}
    {pieces rest : List ReadResult} (hin : s.input fd = pieces ++ rest)
    (hflow : ∀ r ∈ pieces, r.Flows) (hbytes : s.static.pending ++ delivered pieces = c :: stream) :
    ∃ s' pieces', myRead s fd = (.one c, s') ∧ s'.input fd = pieces' ++ rest ∧
      (∀ r ∈ pieces', r.Flows) ∧ s'.static.pending ++ delivered pieces' = stream := by
  unfold myRead
  by_cases hcnt : 0 < s.static.readCnt
  · rw [s.static.pending_eq_cons hcnt, List.cons_append, List.cons.injEq] at hbytes
    rw [dif_pos hcnt, hbytes.1]
    exact ⟨_, pieces, rfl, hin, hflow, hbytes.2⟩
  · rw [dif_neg hcnt, hin]
    rw [MyRead.pending_of_nonpos (not_lt.mp hcnt), List.nil_append] at hbytes
    obtain ⟨m, hm, pieces', hagain, hflow', hbytes'⟩ :=
      again_flows s.static rest hflow (hbytes ▸ List.cons_ne_nil c stream)
    rw [hbytes, m.pending_eq_cons hm, List.cons_append, List.cons.injEq] at hbytes'
    rw [hagain, ← hbytes'.1]
    exact ⟨_, pieces', rfl, Function.update_self _ _ _, hflow', hbytes'.2⟩

/-- `my_read` gives the next byte of a stream. -/
theorem myRead_has {fd : Fd} {s : State} {c : UInt8} {stream : List UInt8}
    (h : Has fd s (c :: stream)) : ∃ s', myRead s fd = (.one c, s') ∧ Has fd s' stream := by
  obtain ⟨pieces, rest, hin, hflow, hbytes⟩ := h
  obtain ⟨s', pieces', hread, hin', hflow', hbytes'⟩ := myRead_pieces hin hflow hbytes
  exact ⟨s', hread, pieces', rest, hin', hflow', hbytes'⟩

/-- The loop of `Readline`, on a stream that has a whole line or fills the
buffer. -/
theorem readlineLoop_has {fd : Fd} (k : ℕ) (stored : List UInt8) {s : State} {stream : List UInt8}
    (h : Has fd s stream) (hline : (10 : UInt8) ∈ stream ∨ k ≤ stream.length) :
    (readlineLoop fd k stored s).1.stored = stored ++ takeLine k stream ∧
      0 < (readlineLoop fd k stored s).1.ret := by
  induction k generalizing stored s stream with
  | zero => exact ⟨(List.append_nil stored).symm, Int.natCast_pos.mpr (Nat.succ_pos _)⟩
  | succ k ih =>
    cases stream with
    | nil => simp at hline
    | cons c stream =>
      obtain ⟨s', hread, hs'⟩ := myRead_has h
      rw [readlineLoop, hread, takeLine]
      dsimp only
      by_cases hc : c = 10
      · rw [if_pos hc, if_pos hc]
        exact ⟨rfl, Int.natCast_pos.mpr (Nat.succ_pos _)⟩
      · rw [if_neg hc, if_neg hc]
        have hline' : (10 : UInt8) ∈ stream ∨ k ≤ stream.length := by
          rcases hline with hmem | hlen
          · exact Or.inl ((List.mem_cons.mp hmem).resolve_left (Ne.symm hc))
          · exact Or.inr (Nat.le_of_succ_le_succ hlen)
        obtain ⟨hstored, hret⟩ := ih (stored ++ [c]) hs' hline'
        exact ⟨by rw [hstored, List.append_assoc, List.singleton_append], hret⟩

/-- A client that has sent one piece and waits. -/
def sending (bytes : List UInt8) (hne : bytes ≠ []) (hlen : bytes.length ≤ 100) : State where
  static := MyRead.start
  input := fun _ => [.data bytes hne hlen, .eagain]

theorem has_sending (fd : Fd) {bytes : List UInt8} (hne : bytes ≠ []) (hlen : bytes.length ≤ 100) :
    Has fd (sending bytes hne hlen) bytes :=
  ⟨[.data bytes hne hlen], [.eagain], rfl, by simp [ReadResult.Flows],
    by simp [sending, MyRead.start, MyRead.pending, delivered, ReadResult.bytes]⟩

end WebServer
end UnixNetwork
