import UnixNetwork.Bytes.Records
import UnixNetwork.WebServer.Wrap

/-!
# Reassembling a stream

`Readline` of `webserver/wrap.cpp` once more, now with the caller's buffer, and what
one call after the other makes of a descriptor.

`upcoming` is the list of the return values `my_read` still has to give, whatever the
static buffer holds and however `read` cuts the stream; `my_read` takes the first of
them (`myRead_upcoming`).  So a run of calls is a function of that list alone, which is
`collect` (`readlines_eq`).

On a stream that only ends, `collect` is `cutLines`: the stream cut behind each newline
and wherever the buffer is full.  Nothing is lost, but `Readline` is wrong about how
much it stored each time the buffer gets full (`retOf`).  An `EAGAIN` inside a line
loses the part of the line that was read already: what stays is the stream only if each
comes between two lines (`unfinished`).
-/

namespace UnixNetwork
namespace WebServer

open Bytes

/-! ## The code -/

/-- What a call of `Readline` leaves: its return value, how far `ptr` has come, and the
caller's buffer. -/
structure Filled (maxlen : ℕ) where
  ret : ℤ
  ptr : ℕ
  buf : Block UInt8 maxlen

namespace Filled

variable {maxlen : ℕ}

/-- The bytes the call stored. -/
def stored (r : Filled maxlen) : List UInt8 := r.buf.toList.take r.ptr

/-- There is a `0` behind them, inside the buffer. -/
def Terminated (r : Filled maxlen) : Prop := r.ptr < maxlen ∧ r.buf.toList[r.ptr]? = some 0

/-- The call without its buffer. -/
def line (r : Filled maxlen) : Line := ⟨r.ret, r.stored⟩

end Filled

section Code

variable {maxlen : ℕ}

/-- The loop of `Readline`, with the number of rounds `n < maxlen` still allows. -/
def readlineIntoLoop (fd : Fd) :
    ℕ → ℤ → ℕ → Block UInt8 maxlen → State → Option (Filled maxlen × State)
  | 0, n, ptr, buf, s => (buf.store ptr [0]).map fun buf => (⟨n, ptr, buf⟩, s)
  | k + 1, n, ptr, buf, s =>
    match myRead s fd with
    | (.one c, s) =>
      (buf.store ptr [c]).bind fun buf =>
        if c = 10 then (buf.store (ptr + 1) [0]).map fun buf => (⟨n, ptr + 1, buf⟩, s)
        else readlineIntoLoop fd k (n + 1) (ptr + 1) buf s
    | (.zero, s) => (buf.store ptr [0]).map fun buf => (⟨n - 1, ptr, buf⟩, s)
    | (.error, s) => some (⟨-1, ptr, buf⟩, s)

/-- `Readline(fd, vptr, maxlen)`, with the buffer behind `vptr`; `none` if it writes
outside of it. -/
def readlineInto (s : State) (fd : Fd) (buf : Block UInt8 maxlen) :
    Option (Filled maxlen × State) :=
  readlineIntoLoop fd (maxlen - 1) 1 0 buf s

/-- One call of `Readline` with each of the buffers until it returns `0`, and what the
calls before that left; `none` if it takes more calls. -/
def readlines (fd : Fd) : List (Block UInt8 maxlen) → State → Option (List (Filled maxlen))
  | [], _ => none
  | buf :: bufs, s =>
    match readlineInto s fd buf with
    | none => none
    | some (r, s') => if r.ret = 0 then some [] else (readlines fd bufs s').map (r :: ·)

end Code

/-! ## The buffer -/

section Buffer

variable {maxlen : ℕ}

/-- A byte is stored behind the bytes that are there. -/
theorem store_one (buf : Block UInt8 maxlen) {ptr : ℕ} (h : ptr < maxlen) (c : UInt8) :
    ∃ buf' : Block UInt8 maxlen, buf.store ptr [c] = some buf' ∧
      buf'.toList.take ptr = buf.toList.take ptr ∧ buf'.toList[ptr]? = some c := by
  obtain ⟨buf', hstore, hlist⟩ := buf.store_eq_some ptr [c] (by rw [List.length_singleton]; omega)
  have hlen : ptr ≤ buf.toList.length := by
    rw [buf.toList_length]
    omega
  refine ⟨buf', hstore, ?_, ?_⟩
  · rw [hlist, take_overwrite_of_le le_rfl hlen]
  · have hwritten : (buf'.toList.drop ptr).take 1 = [c] := by
      rw [hlist]
      exact take_drop_overwrite buf.toList ptr [c]
        (by rw [buf.toList_length, List.length_singleton]; omega)
    have hfirst : ((buf'.toList.drop ptr).take 1)[0]? = some c := by
      rw [hwritten, List.getElem?_cons_zero]
    rwa [List.getElem?_take_of_lt Nat.one_pos, List.getElem?_drop, Nat.add_zero] at hfirst

/-- The loop stays in the buffer, and stores what `readlineLoop` says. -/
theorem readlineIntoLoop_eq (fd : Fd) (k ptr : ℕ) (buf : Block UInt8 maxlen) (s : State)
    (h : ptr + k < maxlen) :
    ∃ r : Filled maxlen, readlineIntoLoop fd k (ptr + 1) ptr buf s =
        some (r, (readlineLoop fd k (buf.toList.take ptr) s).2) ∧
      r.line = (readlineLoop fd k (buf.toList.take ptr) s).1 ∧ r.stored.length = r.ptr ∧
      (r.ret ≠ -1 → r.Terminated) := by
  have hptr : ∀ b : Block UInt8 maxlen, ∀ i ≤ maxlen, (b.toList.take i).length = i := by
    intro b i hi
    rw [List.length_take, b.toList_length, Nat.min_eq_left hi]
  induction k generalizing ptr buf s with
  | zero =>
    have hlt : ptr < maxlen := h
    obtain ⟨buf', hstore, htake, hzero⟩ := store_one buf hlt 0
    refine ⟨⟨ptr + 1, ptr, buf'⟩, ?_, ?_, hptr buf' ptr hlt.le, fun _ => ⟨hlt, hzero⟩⟩
    · rw [readlineIntoLoop, hstore]
      rfl
    · rw [Filled.line, Filled.stored, readlineLoop]
      dsimp only
      rw [htake, hptr buf ptr hlt.le]
  | succ k ih =>
    rw [readlineIntoLoop, readlineLoop]
    rcases myRead s fd with ⟨c | _ | _, s'⟩ <;> dsimp only
    · obtain ⟨buf', hstore, htake, hc⟩ := store_one buf (by omega : ptr < maxlen) c
      have hnext : buf'.toList.take (ptr + 1) = buf.toList.take ptr ++ [c] := by
        rw [List.take_add_one, htake, hc, Option.toList_some]
      rw [hstore, Option.bind_some]
      by_cases hnl : c = 10
      · obtain ⟨buf'', hstore', htake', hzero⟩ :=
          store_one buf' (by omega : ptr + 1 < maxlen) 0
        have hlt : ptr + 1 < maxlen := by omega
        rw [if_pos hnl, if_pos hnl, hstore']
        refine ⟨⟨ptr + 1, ptr + 1, buf''⟩, rfl, ?_, hptr buf'' _ hlt.le, fun _ => ⟨hlt, hzero⟩⟩
        rw [Filled.line, Filled.stored]
        dsimp only
        rw [htake', hnext, hptr buf ptr (by omega)]
      · rw [if_neg hnl, if_neg hnl, ← hnext]
        have := ih (ptr + 1) buf' s' (by omega)
        rwa [Int.natCast_succ] at this
    · have hlt : ptr < maxlen := by omega
      obtain ⟨buf', hstore, htake, hzero⟩ := store_one buf hlt 0
      rw [hstore]
      refine ⟨⟨ptr, ptr, buf'⟩, ?_, ?_, hptr buf' ptr hlt.le, fun _ => ⟨hlt, hzero⟩⟩
      · rw [Option.map_some, Int.add_sub_cancel]
      · rw [Filled.line, Filled.stored]
        dsimp only
        rw [htake, hptr buf ptr hlt.le]
    · exact ⟨⟨-1, ptr, buf⟩, rfl, rfl, hptr buf ptr (by omega), fun hret => absurd rfl hret⟩

/-- **`Readline` stays in its buffer**, and what it stores there is followed by a `0`
unless it fails. -/
theorem readlineInto_eq (fd : Fd) (buf : Block UInt8 maxlen) (s : State) (h : 1 ≤ maxlen) :
    ∃ r : Filled maxlen, readlineInto s fd buf = some (r, (readline s fd maxlen).2) ∧
      r.line = (readline s fd maxlen).1 ∧ r.stored.length = r.ptr ∧
      (r.ret ≠ -1 → r.Terminated) :=
  readlineIntoLoop_eq fd (maxlen - 1) 0 buf s (by omega)

end Buffer

/-! ## What `my_read` has to give -/

/-- What `my_read` makes of one result of `read`. -/
def ReadResult.rcs : ReadResult → List Rc
  | .data bytes _ _ => bytes.map .one
  | .eof => [.zero]
  | .eintr => []
  | .eagain => [.error]
  | .fail => [.error]

/-- The return values `my_read` has to give on a descriptor; behind them it is `0` again
and again. -/
def upcoming (s : State) (fd : Fd) : List Rc :=
  s.static.pending.map .one ++ (s.input fd).flatMap ReadResult.rcs

theorem upcoming_update (m : MyRead) (input : Fd → List ReadResult) (fd : Fd)
    (rest : List ReadResult) : upcoming ⟨m, Function.update input fd rest⟩ fd =
      m.pending.map .one ++ rest.flatMap ReadResult.rcs := by
  show m.pending.map Rc.one ++ (Function.update input fd rest fd).flatMap ReadResult.rcs = _
  rw [Function.update_self]

/-- The `again` loop takes results until one of them means something to `my_read`. -/
theorem again_rcs (m : MyRead) (results : List ReadResult) :
    match again m results with
    | (.stop rc m', rest) => rc = (results.flatMap ReadResult.rcs).headD .zero ∧
        m'.readCnt ≤ 0 ∧ rest.flatMap ReadResult.rcs = (results.flatMap ReadResult.rcs).tail
    | (.filled m' _, rest) =>
        m'.pending.map .one ++ rest.flatMap ReadResult.rcs = results.flatMap ReadResult.rcs := by
  induction results generalizing m with
  | nil => exact ⟨rfl, le_rfl, rfl⟩
  | cons result rest ih =>
    cases result with
    | data bytes hne hlen =>
      show (m.fill bytes hlen).pending.map Rc.one ++ rest.flatMap ReadResult.rcs =
        (ReadResult.data bytes hne hlen :: rest).flatMap ReadResult.rcs
      rw [m.pending_fill, List.flatMap_cons, ReadResult.rcs]
    | eof => exact ⟨rfl, le_rfl, rfl⟩
    | eintr => exact ih (m.setCnt (-1) (by decide))
    | eagain => exact ⟨rfl, (by decide : (-1 : ℤ) ≤ 0), rfl⟩
    | fail => exact ⟨rfl, (by decide : (-1 : ℤ) ≤ 0), rfl⟩

/-- **`my_read` takes the first of what is coming**, wherever the static buffer stands. -/
theorem myRead_upcoming (s : State) (fd : Fd) :
    (myRead s fd).1 = (upcoming s fd).headD .zero ∧
      upcoming (myRead s fd).2 fd = (upcoming s fd).tail := by
  unfold myRead
  by_cases h : 0 < s.static.readCnt
  · rw [dif_pos h, upcoming, upcoming, s.static.pending_eq_cons h, List.map_cons, List.cons_append]
    exact ⟨rfl, rfl⟩
  · have hup : upcoming s fd = (s.input fd).flatMap ReadResult.rcs := by
      rw [upcoming, MyRead.pending_of_nonpos (not_lt.mp h), List.map_nil, List.nil_append]
    have hspec := again_rcs s.static (s.input fd)
    rw [dif_neg h, hup]
    rcases hagain : again s.static (s.input fd) with ⟨⟨rc, m⟩ | ⟨m, hm⟩, rest⟩ <;>
      rw [hagain] at hspec <;> dsimp only at hspec ⊢
    · refine ⟨hspec.1, ?_⟩
      rw [upcoming_update, MyRead.pending_of_nonpos hspec.2.1, List.map_nil, List.nil_append]
      exact hspec.2.2
    · rw [← hspec, m.pending_eq_cons hm, upcoming_update]
      exact ⟨rfl, rfl⟩

/-- What calls of `Readline` with room for `k` bytes make of what `my_read` gives, until
one returns `0`; `stored` is what the call at work has so far. -/
def collect (k : ℕ) : List UInt8 → List Rc → List Line
  | stored, [] => if stored = [] then [] else [⟨stored.length, stored⟩]
  | stored, .one c :: rcs =>
    if c = 10 then ⟨stored.length + 1, stored ++ [c]⟩ :: collect k [] rcs
    else if stored.length + 1 < k then collect k (stored ++ [c]) rcs
    else ⟨stored.length + 2, stored ++ [c]⟩ :: collect k [] rcs
  | stored, .zero :: rcs =>
    if stored = [] then [] else ⟨stored.length, stored⟩ :: collect k [] rcs
  | stored, .error :: rcs => ⟨-1, stored⟩ :: collect k [] rcs

/-- `collect` when the call at work has stored something: it may have been the last byte
there was room for. -/
def resume (k : ℕ) (stored : List UInt8) (rcs : List Rc) : List Line :=
  if stored.length < k then collect k stored rcs
  else ⟨stored.length + 1, stored⟩ :: collect k [] rcs

theorem collect_one (k : ℕ) (stored : List UInt8) (c : UInt8) (rcs : List Rc) :
    collect k stored (.one c :: rcs) =
      if c = 10 then ⟨stored.length + 1, stored ++ [c]⟩ :: collect k [] rcs
      else resume k (stored ++ [c]) rcs := by
  rw [collect, resume, List.length_append, List.length_singleton]
  rfl

/-- A call of `Readline`, and the calls after it. -/
def followed (k : ℕ) (fd : Fd) (call : Line × State) : List Line :=
  if call.1.ret = 0 then [] else call.1 :: collect k [] (upcoming call.2 fd)

/-- One call of `Readline` is the first step of `collect`. -/
theorem readlineLoop_resume (fd : Fd) (j k : ℕ) (stored : List UInt8) (s : State)
    (hk : stored.length + j = k) :
    resume k stored (upcoming s fd) = followed k fd (readlineLoop fd j stored s) := by
  induction j generalizing stored s with
  | zero =>
    have hret : ¬ (stored.length : ℤ) + 1 = 0 := by omega
    rw [resume, if_neg (by omega), readlineLoop, followed, if_neg hret]
  | succ j ih =>
    obtain ⟨hread, hrest⟩ := myRead_upcoming s fd
    have hpos : ∀ n : ℕ, ¬ (n : ℤ) + 1 = 0 := by omega
    have hzero : stored = [] ↔ (stored.length : ℤ) = 0 := by
      rw [Int.natCast_eq_zero, List.length_eq_zero_iff]
    rw [resume, if_pos (by omega), readlineLoop]
    rcases hmy : myRead s fd with ⟨rc, s'⟩
    rw [hmy] at hread hrest
    rcases hup : upcoming s fd with _ | ⟨c | _ | _, rcs⟩ <;> rw [hup] at hread hrest <;>
      dsimp only [List.headD_nil, List.headD_cons, List.tail_nil, List.tail_cons] at hread hrest <;>
      subst hread <;> dsimp only
    · rw [collect, followed, hrest, collect, if_pos rfl]
      exact if_congr hzero rfl rfl
    · rw [collect_one]
      by_cases hc : c = 10
      · rw [if_pos hc, if_pos hc, followed, if_neg (hpos _), hrest]
      · rw [if_neg hc, if_neg hc, ← hrest, ih (stored ++ [c]) s' (by
          rw [List.length_append, List.length_singleton]
          omega)]
    · rw [collect, followed, hrest]
      exact if_congr hzero rfl rfl
    · rw [collect, followed, hrest, if_neg (show ¬ (-1 : ℤ) = 0 by decide)]

/-- **A run of calls collects what is coming**, as soon as there are buffers enough. -/
theorem readlines_eq {maxlen : ℕ} (hmax : 2 ≤ maxlen) (fd : Fd) (bufs : List (Block UInt8 maxlen))
    (s : State) (h : (collect (maxlen - 1) [] (upcoming s fd)).length < bufs.length) :
    ∃ rs, readlines fd bufs s = some rs ∧
      rs.map Filled.line = collect (maxlen - 1) [] (upcoming s fd) ∧
      ∀ r ∈ rs, r.stored.length = r.ptr ∧ (r.ret ≠ -1 → r.Terminated) := by
  induction bufs generalizing s with
  | nil => exact absurd h (Nat.not_lt_zero _)
  | cons buf bufs ih =>
    obtain ⟨r, hr, hline, hlen, hterm⟩ := readlineInto_eq fd buf s (by omega)
    have hfirst := readlineLoop_resume fd (maxlen - 1) (maxlen - 1) [] s (Nat.zero_add _)
    rw [resume, if_pos (by rw [List.length_nil]; omega), ← readline, followed, ← hline] at hfirst
    rw [readlines, hr]
    dsimp only
    by_cases hret : r.ret = 0
    · rw [if_pos hret]
      rw [if_pos (show r.line.ret = 0 from hret)] at hfirst
      exact ⟨[], rfl, hfirst.symm, fun _ hmem => absurd hmem List.not_mem_nil⟩
    · rw [if_neg hret]
      rw [if_neg (show ¬ r.line.ret = 0 from hret)] at hfirst
      rw [hfirst, List.length_cons, List.length_cons] at h
      obtain ⟨rs, hrs, hlines, hall⟩ := ih (readline s fd maxlen).2 (by omega)
      refine ⟨r :: rs, by rw [hrs, Option.map_some], by rw [List.map_cons, hlines, hfirst], ?_⟩
      intro r' hr'
      rcases List.mem_cons.mp hr' with rfl | hmem
      · exact ⟨hlen, hterm⟩
      · exact hall r' hmem

/-! ## A stream that ends -/

theorem upcoming_of_empty {s : State} (h : s.static.readCnt ≤ 0) (fd : Fd) :
    upcoming s fd = (s.input fd).flatMap ReadResult.rcs := by
  rw [upcoming, MyRead.pending_of_nonpos h, List.map_nil, List.nil_append]

/-- Pieces and interruptions are bytes to `my_read`. -/
theorem flatMap_rcs_of_flows {pieces : List ReadResult} (h : ∀ r ∈ pieces, r.Flows) :
    pieces.flatMap ReadResult.rcs = (delivered pieces).map .one := by
  induction pieces with
  | nil => rfl
  | cons result pieces ih =>
    have hrest := ih fun r hr => h r (List.mem_cons_of_mem _ hr)
    rw [List.flatMap_cons, hrest]
    cases result with
    | data bytes hne hlen => exact List.map_append.symm
    | eintr => rfl
    | eof => exact (h _ List.mem_cons_self).elim
    | eagain => exact (h _ List.mem_cons_self).elim
    | fail => exact (h _ List.mem_cons_self).elim

/-- What `Readline` returns when it has stored a record: after filling up the buffer, one
more than it stored. -/
def retOf (k : ℕ) (l : List UInt8) : ℤ :=
  if l.length = k ∧ (10 : UInt8) ∉ l then k + 1 else l.length

theorem retOf_eq_length_iff {k : ℕ} {l : List UInt8} :
    retOf k l = l.length ↔ ¬ (l.length = k ∧ (10 : UInt8) ∉ l) := by
  rw [retOf]
  split
  · rename_i h
    refine ⟨fun heq => absurd heq ?_, fun hn => absurd h hn⟩
    have := h.1
    omega
  · rename_i h
    exact ⟨fun _ => h, fun _ => rfl⟩

/-- A record as `Readline` leaves it. -/
def recordLine (k : ℕ) (l : List UInt8) : Line := ⟨retOf k l, l⟩

/-- On bytes alone the calls cut them into records. -/
theorem collect_map_one {k : ℕ} {stored : List UInt8} (hstored : (10 : UInt8) ∉ stored)
    (hk : stored.length < k) (stream : List UInt8) :
    collect k stored (stream.map .one) = (cut 10 k stored stream).map (recordLine k) := by
  induction stream generalizing stored with
  | nil =>
    rw [List.map_nil, collect, cut]
    split
    · rfl
    · rw [List.map_singleton, recordLine, retOf, if_neg fun h => absurd h.1 hk.ne]
  | cons c stream ih =>
    have hnil : ([] : List UInt8).length < k := Nat.zero_lt_of_lt hk
    have hlen : (stored ++ [c]).length = stored.length + 1 := by
      rw [List.length_append, List.length_singleton]
    rw [List.map_cons, collect, cut]
    by_cases hc : c = 10
    · have hmem : (10 : UInt8) ∈ stored ++ [c] := by
        rw [hc]
        exact List.mem_append_right _ List.mem_cons_self
      rw [if_pos hc, if_pos (Or.inl hc), ih List.not_mem_nil hnil, List.map_cons, recordLine,
        retOf, if_neg fun h => h.2 hmem, hlen]
      rfl
    · have hnotMem : (10 : UInt8) ∉ stored ++ [c] := by
        rw [List.mem_append, List.mem_singleton, not_or]
        exact ⟨hstored, Ne.symm hc⟩
      by_cases hlt : stored.length + 1 < k
      · rw [if_neg hc, if_pos hlt, if_neg (not_or.mpr ⟨hc, not_not.mpr hlt⟩)]
        exact ih hnotMem (by rwa [hlen])
      · have hfull : (stored ++ [c]).length = k := by omega
        have hret : retOf k (stored ++ [c]) = stored.length + 2 := by
          rw [retOf, if_pos ⟨hfull, hnotMem⟩]
          omega
        rw [if_neg hc, if_neg hlt, if_pos (Or.inr hlt), ih List.not_mem_nil hnil, List.map_cons,
          recordLine, hret]

/-- What the calls should leave of a stream. -/
structure Reassembled {maxlen : ℕ} (stream : List UInt8) (rs : List (Filled maxlen)) : Prop where
  whole : (rs.map Filled.stored).flatten = stream
  newline_last : ∀ r ∈ rs, (10 : UInt8) ∉ r.stored.dropLast
  full_or_last : ∀ r ∈ rs.dropLast, r.stored.getLast? = some 10 ∨ r.stored.length = maxlen - 1
  terminated : ∀ r ∈ rs, r.Terminated ∧ r.stored.length = r.ptr
  ret_eq : ∀ r ∈ rs, r.ret = r.stored.length

section Stream

variable {maxlen : ℕ} {fd : Fd} {s : State} {pieces : List ReadResult}

/-- All of it but what the calls return holds of every stream. -/
theorem readlines_records (hmax : 2 ≤ maxlen) (hempty : s.static.readCnt ≤ 0)
    (hinput : s.input fd = pieces) (hflow : ∀ r ∈ pieces, r.Flows)
    (bufs : List (Block UInt8 maxlen)) (hbufs : (delivered pieces).length < bufs.length) :
    ∃ rs, readlines fd bufs s = some rs ∧
      rs.map Filled.line =
        (cut 10 (maxlen - 1) [] (delivered pieces)).map (recordLine (maxlen - 1)) ∧
      ((∀ r ∈ rs, r.ret = r.stored.length) → Reassembled (delivered pieces) rs) := by
  have hk : ([] : List UInt8).length < maxlen - 1 := by
    rw [List.length_nil]
    omega
  have hcollect : collect (maxlen - 1) [] (upcoming s fd) =
      (cut 10 (maxlen - 1) [] (delivered pieces)).map (recordLine (maxlen - 1)) := by
    rw [upcoming_of_empty hempty, hinput, flatMap_rcs_of_flows hflow,
      collect_map_one List.not_mem_nil hk]
  have hcalls : (collect (maxlen - 1) [] (upcoming s fd)).length < bufs.length := by
    rw [hcollect, List.length_map]
    exact lt_of_le_of_lt (length_cut_le _) hbufs
  obtain ⟨rs, hrs, hlines, hall⟩ := readlines_eq hmax fd bufs s hcalls
  rw [hcollect] at hlines
  have hstored : rs.map Filled.stored = cut 10 (maxlen - 1) [] (delivered pieces) := by
    have := congrArg (List.map Line.stored) hlines
    rw [List.map_map, List.map_map] at this
    exact this.trans (List.map_id _)
  have hmem : ∀ r ∈ rs, r.stored ∈ cut 10 (maxlen - 1) [] (delivered pieces) := by
    intro r hr
    rw [← hstored]
    exact List.mem_map_of_mem hr
  refine ⟨rs, hrs, hlines, fun hret => ⟨?_, ?_, ?_, ?_, hret⟩⟩
  · rw [hstored, flatten_cut, List.nil_append]
  · exact fun r hr => notMem_dropLast_of_mem_cut List.not_mem_nil (hmem r hr)
  · intro r hr
    refine getLast?_or_length_of_mem_dropLast_cut (delivered pieces) hk ?_
    rw [← hstored, ← List.map_dropLast]
    exact List.mem_map_of_mem hr
  · intro r hr
    obtain ⟨hptr, hterm⟩ := hall r hr
    refine ⟨hterm ?_, hptr⟩
    rw [hret r hr]
    omega

/-- **`Readline` reassembles the stream** just if it never has to cut a line. -/
theorem readline_reassembles_iff (hmax : 2 ≤ maxlen) (hempty : s.static.readCnt ≤ 0)
    (hinput : s.input fd = pieces) (hflow : ∀ r ∈ pieces, r.Flows) :
    (∀ bufs : List (Block UInt8 maxlen), (delivered pieces).length < bufs.length →
        ∃ rs, readlines fd bufs s = some rs ∧ Reassembled (delivered pieces) rs) ↔
      ∀ part, part <:+: delivered pieces → part.length = maxlen - 1 → (10 : UInt8) ∈ part := by
  have hpos : 0 < maxlen - 1 := by omega
  constructor
  · intro h part hin hlen
    by_contra hpart
    obtain ⟨l, hl, hfull⟩ := (exists_full_mem_cut_iff hpos).mpr ⟨part, hin, hlen, hpart⟩
    obtain ⟨rs, hrs, hre⟩ := h
      (List.replicate ((delivered pieces).length + 1) (List.Vector.replicate maxlen 0))
      (by rw [List.length_replicate]; omega)
    obtain ⟨rs', hrs', hlines, -⟩ := readlines_records hmax hempty hinput hflow
      (List.replicate ((delivered pieces).length + 1) (List.Vector.replicate maxlen 0))
      (by rw [List.length_replicate]; omega)
    rw [hrs] at hrs'
    cases hrs'
    have hline : recordLine (maxlen - 1) l ∈ rs.map Filled.line := by
      rw [hlines]
      exact List.mem_map_of_mem hl
    obtain ⟨r, hr, hrl⟩ := List.mem_map.mp hline
    have hret : r.ret = retOf (maxlen - 1) l := congrArg Line.ret hrl
    have hst : r.stored = l := congrArg Line.stored hrl
    have := hre.ret_eq r hr
    rw [hret, hst] at this
    exact retOf_eq_length_iff.mp this hfull
  · intro h bufs hbufs
    obtain ⟨rs, hrs, hlines, hre⟩ := readlines_records hmax hempty hinput hflow bufs hbufs
    refine ⟨rs, hrs, hre fun r hr => ?_⟩
    have hline : r.line ∈
        (cut 10 (maxlen - 1) [] (delivered pieces)).map (recordLine (maxlen - 1)) := by
      rw [← hlines]
      exact List.mem_map_of_mem hr
    obtain ⟨l, hl, hrl⟩ := List.mem_map.mp hline
    have hret : retOf (maxlen - 1) l = r.ret := congrArg Line.ret hrl
    have hst : l = r.stored := congrArg Line.stored hrl
    rw [← hret, ← hst]
    refine retOf_eq_length_iff.mpr fun hfull => ?_
    obtain ⟨part, hin, hlen, hpart⟩ := (exists_full_mem_cut_iff hpos).mp ⟨l, hl, hfull⟩
    exact hpart (h part hin hlen)

end Stream

/-- A client that sends something and closes. -/
def sendingAll (bytes : List UInt8) (hne : bytes ≠ []) (hlen : bytes.length ≤ 100) : State where
  static := MyRead.start
  input := fun _ => [.data bytes hne hlen]

/-- One line, and buffers it fits into. -/
theorem readline_reassembles_line : ∃ rs, readlines 5 (List.replicate 3 (Block.zero 4))
      (sendingAll [97, 10] (by decide) (by decide)) = some rs ∧ Reassembled [97, 10] rs := by
  have hinput : (sendingAll [97, 10] (by decide) (by decide)).input 5 =
    [.data [97, 10] (by decide) (by decide)] := rfl
  refine (readline_reassembles_iff (by decide) le_rfl hinput
    (by simp [ReadResult.Flows])).mpr ?_ _ (by decide)
  intro part hin hlen
  have hle := hin.length_le
  rw [hlen] at hle
  exact absurd hle (by decide)

/-- One letter and a buffer for one letter: `Readline` says it stored two. -/
theorem not_reassembled_full : ¬ ∀ bufs : List (Block UInt8 2), 1 < bufs.length →
    ∃ rs, readlines 5 bufs (sendingAll [97] (by decide) (by decide)) = some rs ∧
      Reassembled [97] rs := by
  intro h
  obtain ⟨rs, hrs, hre⟩ := h [Block.zero 2, Block.zero 2] (by decide)
  have hrun : readlines 5 [Block.zero 2, Block.zero 2]
      (sendingAll [97] (by decide) (by decide)) = some [⟨2, 1, ⟨[97, 0], rfl⟩⟩] := rfl
  rw [hrun] at hrs
  cases hrs
  exact absurd (hre.ret_eq _ List.mem_cons_self) (by decide)

/-! ## A stream with pauses -/

/-- A result on which `Readline` goes on, or the answer that there is nothing yet. -/
def ReadResult.Pauses (r : ReadResult) : Prop := r.Flows ∨ r = .eagain

/-- What the calls that did not fail stored, all of it. -/
def returned (lines : List Line) : List UInt8 :=
  ((lines.filter fun l => 0 < l.ret).map Line.stored).flatten

theorem returned_cons_of_pos {l : Line} (h : 0 < l.ret) (lines : List Line) :
    returned (l :: lines) = l.stored ++ returned lines := by
  rw [returned, List.filter_cons_of_pos (by simpa using h), List.map_cons, List.flatten_cons]
  rfl

theorem returned_cons_of_not_pos {l : Line} (h : ¬ 0 < l.ret) (lines : List Line) :
    returned (l :: lines) = returned lines := by
  rw [returned, List.filter_cons_of_neg (by simpa using h)]
  rfl

/-- A byte is returned at once or stored. -/
theorem returned_collect_one (k : ℕ) (stored : List UInt8) (c : UInt8) (rcs : List Rc) :
    ∃ out, returned (collect k stored (.one c :: rcs)) =
        out ++ returned (collect k (grow 10 k stored c) rcs) ∧
      out ++ grow 10 k stored c = stored ++ [c] := by
  have hret : ∀ n : ℕ, 0 < n → (0 : ℤ) < n := fun n hn => Int.natCast_pos.mpr hn
  rw [collect, grow]
  by_cases hc : c = 10
  · rw [if_pos hc, if_pos (Or.inl hc), returned_cons_of_pos (hret _ (Nat.succ_pos _))]
    exact ⟨_, rfl, List.append_nil _⟩
  · rw [if_neg hc]
    by_cases hlt : stored.length + 1 < k
    · rw [if_pos hlt, if_neg (not_or.mpr ⟨hc, not_not.mpr hlt⟩)]
      exact ⟨[], rfl, List.nil_append _⟩
    · rw [if_neg hlt, if_pos (Or.inr hlt), returned_cons_of_pos (hret _ (Nat.succ_pos _))]
      exact ⟨_, rfl, List.append_nil _⟩

theorem returned_collect_nil (k : ℕ) (stored : List UInt8) :
    returned (collect k stored []) = stored := by
  rw [collect]
  split
  · rename_i h
    rw [h]
    rfl
  · rename_i h
    have hpos : (0 : ℤ) < stored.length := Int.natCast_pos.mpr (List.length_pos_iff.mpr h)
    rw [returned_cons_of_pos hpos]
    exact List.append_nil _

theorem returned_collect_error (k : ℕ) (stored : List UInt8) (rcs : List Rc) :
    returned (collect k stored (.error :: rcs)) = returned (collect k [] rcs) := by
  exact returned_cons_of_not_pos (show ¬ (0 : ℤ) < -1 by decide) _

/-- Nothing is returned that was not read. -/
theorem length_returned_collect_le (k : ℕ) {rcs : List Rc} (h : ∀ rc ∈ rcs, rc ≠ .zero)
    (stored : List UInt8) :
    (returned (collect k stored rcs)).length ≤ stored.length + (rcs.flatMap Rc.bytes).length := by
  induction rcs generalizing stored with
  | nil =>
    rw [returned_collect_nil]
    exact Nat.le_add_right _ _
  | cons rc rcs ih =>
    have ih := ih fun rc hrc => h rc (List.mem_cons_of_mem _ hrc)
    rw [List.flatMap_cons, List.length_append]
    cases rc with
    | one c =>
      obtain ⟨out, hout, hstored⟩ := returned_collect_one k stored c rcs
      have hlen := congrArg List.length hstored
      have hle := ih (grow 10 k stored c)
      rw [List.length_append, List.length_append, List.length_singleton] at hlen
      rw [hout, List.length_append, Rc.bytes, List.length_singleton]
      omega
    | zero => exact absurd rfl (h _ List.mem_cons_self)
    | error =>
      have hle := ih []
      rw [List.length_nil] at hle
      rw [returned_collect_error]
      omega

/-- **What is returned is what was read** just if each pause finds nothing stored. -/
theorem returned_collect_eq_iff (k : ℕ) {rcs : List Rc} (h : ∀ rc ∈ rcs, rc ≠ .zero)
    (stored : List UInt8) :
    returned (collect k stored rcs) = stored ++ rcs.flatMap Rc.bytes ↔
      ∀ pre post, rcs = pre ++ .error :: post →
        unfinished 10 k stored (pre.flatMap Rc.bytes) = [] := by
  induction rcs generalizing stored with
  | nil =>
    rw [returned_collect_nil, List.flatMap_nil, List.append_nil]
    refine ⟨fun _ pre post hpre => ?_, fun _ => rfl⟩
    exact absurd hpre (List.append_ne_nil_of_right_ne_nil _ (List.cons_ne_nil _ _)).symm
  | cons rc rcs ih =>
    have h' : ∀ rc ∈ rcs, rc ≠ .zero := fun rc hrc => h rc (List.mem_cons_of_mem _ hrc)
    cases rc with
    | one c =>
      obtain ⟨out, hout, hstored⟩ := returned_collect_one k stored c rcs
      have hbytes : stored ++ (Rc.one c :: rcs).flatMap Rc.bytes =
          out ++ (grow 10 k stored c ++ rcs.flatMap Rc.bytes) := by
        rw [List.flatMap_cons, Rc.bytes, ← List.append_assoc, ← hstored, List.append_assoc]
      rw [hout, hbytes, List.append_cancel_left_eq, ih h']
      constructor
      · intro hall pre post hpre
        rcases pre with _ | ⟨rc, pre⟩
        · cases hpre
        · obtain ⟨rfl, hrest⟩ := List.cons.inj hpre
          rw [List.flatMap_cons, Rc.bytes, List.singleton_append, unfinished,
            List.foldl_cons]
          exact hall pre post hrest
      · intro hall pre post hpre
        have := hall (.one c :: pre) post (by rw [hpre, List.cons_append])
        rwa [List.flatMap_cons, Rc.bytes, List.singleton_append, unfinished, List.foldl_cons] at this
    | zero => exact absurd rfl (h _ List.mem_cons_self)
    | error =>
      have herror : (Rc.error :: rcs).flatMap Rc.bytes = rcs.flatMap Rc.bytes := rfl
      rw [returned_collect_error, herror]
      have hle := length_returned_collect_le k h' []
      have hnil := ih h' []
      rw [List.nil_append] at hnil
      constructor
      · intro heq pre post hpre
        have hstored : stored = [] := by
          rw [heq, List.length_append, List.length_nil] at hle
          exact List.length_eq_zero_iff.mp (by omega)
        rw [hstored, List.nil_append] at heq
        rcases pre with _ | ⟨rc, pre⟩
        · exact hstored
        · obtain ⟨rfl, hrest⟩ := List.cons.inj hpre
          rw [hstored]
          exact hnil.mp heq pre post hrest
      · intro hall
        have hstored : stored = [] := hall [] rcs rfl
        rw [hstored, List.nil_append, hnil]
        intro pre post hpre
        have := hall (.error :: pre) post (by rw [hpre, List.cons_append])
        rwa [hstored] at this

section Pauses

variable {results : List ReadResult}

theorem delivered_cons (r : ReadResult) (results : List ReadResult) :
    delivered (r :: results) = r.bytes ++ delivered results := rfl

theorem flatMap_bytes_map_one (bytes : List UInt8) : (bytes.map Rc.one).flatMap Rc.bytes = bytes := by
  induction bytes with
  | nil => rfl
  | cons c bytes ih => rw [List.map_cons, List.flatMap_cons, ih, Rc.bytes, List.singleton_append]

/-- The bytes `my_read` gives are those the pieces deliver. -/
theorem flatMap_bytes_rcs (results : List ReadResult) :
    (results.flatMap ReadResult.rcs).flatMap Rc.bytes = delivered results := by
  induction results with
  | nil => rfl
  | cons r results ih =>
    rw [List.flatMap_cons, List.flatMap_append, ih, delivered_cons]
    cases r with
    | data bytes hne hlen =>
      rw [ReadResult.rcs, flatMap_bytes_map_one]
      rfl
    | eof => rfl
    | eintr => rfl
    | eagain => rfl
    | fail => rfl

theorem ne_zero_of_pauses (h : ∀ r ∈ results, r.Pauses) :
    ∀ rc ∈ results.flatMap ReadResult.rcs, rc ≠ .zero := by
  rintro rc hrc rfl
  obtain ⟨r, hr, hmem⟩ := List.mem_flatMap.mp hrc
  cases r with
  | data bytes hne hlen =>
    obtain ⟨c, -, hc⟩ := List.mem_map.mp hmem
    cases hc
  | eof =>
    rcases h _ hr with hflow | heq
    · exact hflow
    · cases heq
  | eintr => cases hmem
  | eagain =>
    rw [ReadResult.rcs, List.mem_singleton] at hmem
    cases hmem
  | fail =>
    rcases h _ hr with hflow | heq
    · exact hflow
    · cases heq

/-- `my_read` fails where there is nothing yet. -/
theorem exists_eagain_of_error (h : ∀ r ∈ results, r.Pauses) {pre post : List Rc}
    (hpre : results.flatMap ReadResult.rcs = pre ++ .error :: post) :
    ∃ before after, results = before ++ .eagain :: after ∧
      before.flatMap ReadResult.rcs = pre := by
  induction results generalizing pre with
  | nil => exact absurd hpre.symm (List.append_ne_nil_of_right_ne_nil _ (List.cons_ne_nil _ _))
  | cons r results ih =>
    have ih := @ih fun r hr => h r (List.mem_cons_of_mem _ hr)
    rw [List.flatMap_cons] at hpre
    cases r with
    | data bytes hne hlen =>
      rw [ReadResult.rcs] at hpre
      rcases List.append_eq_append_iff.mp hpre with ⟨m, hm, hrest⟩ | ⟨m, hm, hrest⟩
      · obtain ⟨before, after, hsplit, hbefore⟩ := ih hrest
        refine ⟨.data bytes hne hlen :: before, after, by rw [hsplit, List.cons_append], ?_⟩
        rw [List.flatMap_cons, hbefore, hm, ReadResult.rcs]
      · rcases m with _ | ⟨rc, m⟩
        · have hnil : results.flatMap ReadResult.rcs = [] ++ .error :: post := hrest.symm
          obtain ⟨before, after, hsplit, hbefore⟩ := ih hnil
          refine ⟨.data bytes hne hlen :: before, after, by rw [hsplit, List.cons_append], ?_⟩
          rw [List.append_nil] at hm
          rw [List.flatMap_cons, hbefore, ReadResult.rcs, List.append_nil, hm]
        · have hmem : Rc.error ∈ bytes.map Rc.one := by
            rw [hm, ← (List.cons.inj hrest).1]
            exact List.mem_append_right _ List.mem_cons_self
          obtain ⟨c, -, hc⟩ := List.mem_map.mp hmem
          cases hc
    | eintr =>
      obtain ⟨before, after, hsplit, hbefore⟩ := ih hpre
      exact ⟨.eintr :: before, after, by rw [hsplit, List.cons_append], hbefore⟩
    | eagain =>
      rcases pre with _ | ⟨rc, pre⟩
      · exact ⟨[], results, rfl, rfl⟩
      · obtain ⟨hrc, hrest⟩ := List.cons.inj hpre
        obtain ⟨before, after, hsplit, hbefore⟩ := ih hrest
        refine ⟨.eagain :: before, after, by rw [hsplit, List.cons_append], ?_⟩
        rw [List.flatMap_cons, hbefore, ← hrc]
        rfl
    | eof | fail =>
      rcases h _ List.mem_cons_self with hflow | heq
      · exact hflow.elim
      · cases heq

theorem length_collect_le (k : ℕ) (stored : List UInt8) (rcs : List Rc) :
    (collect k stored rcs).length ≤ stored.length + rcs.length := by
  induction rcs generalizing stored with
  | nil =>
    rw [collect]
    split
    · exact Nat.zero_le _
    · rename_i h
      exact List.length_pos_iff.mpr h
  | cons rc rcs ih =>
    have hnil := ih []
    rw [List.length_nil, Nat.zero_add] at hnil
    cases rc with
    | one c =>
      have hmore := ih (stored ++ [c])
      rw [List.length_append, List.length_singleton] at hmore
      rw [collect]
      split
      · simp only [List.length_cons]; omega
      · split
        · simp only [List.length_cons]; omega
        · simp only [List.length_cons]; omega
    | zero =>
      rw [collect]
      split
      · exact Nat.zero_le _
      · simp only [List.length_cons]; omega
    | error =>
      rw [collect]
      simp only [List.length_cons]; omega

theorem length_flatMap_rcs_le (results : List ReadResult) :
    (results.flatMap ReadResult.rcs).length ≤ (delivered results).length + results.length := by
  induction results with
  | nil => exact le_rfl
  | cons r results ih =>
    have hr : r.rcs.length ≤ r.bytes.length + 1 := by
      cases r with
      | data bytes hne hlen =>
        rw [ReadResult.rcs, List.length_map]
        exact Nat.le_succ _
      | eof => exact le_rfl
      | eintr => exact Nat.zero_le _
      | eagain => exact le_rfl
      | fail => exact le_rfl
    rw [List.flatMap_cons, delivered_cons, List.length_append, List.length_append, List.length_cons]
    omega

/-- **`Readline` loses nothing when it fails** just if it fails between two lines. -/
theorem readline_loses_nothing_iff {maxlen : ℕ} (hmax : 2 ≤ maxlen) {fd : Fd} {s : State}
    (hempty : s.static.readCnt ≤ 0) (hinput : s.input fd = results)
    (hpauses : ∀ r ∈ results, r.Pauses) :
    (∀ bufs : List (Block UInt8 maxlen), (delivered results).length + results.length < bufs.length →
        ∃ rs, readlines fd bufs s = some rs ∧
          returned (rs.map Filled.line) = delivered results) ↔
      ∀ before after, results = before ++ .eagain :: after →
        unfinished 10 (maxlen - 1) [] (delivered before) = [] := by
  have hup : upcoming s fd = results.flatMap ReadResult.rcs := by
    rw [upcoming_of_empty hempty, hinput]
  -- the run of calls is the same for all buffers
  have hrun : ∀ bufs : List (Block UInt8 maxlen),
      (delivered results).length + results.length < bufs.length →
      ∃ rs, readlines fd bufs s = some rs ∧
        rs.map Filled.line = collect (maxlen - 1) [] (results.flatMap ReadResult.rcs) := by
    intro bufs hbufs
    have hcalls := length_collect_le (maxlen - 1) [] (upcoming s fd)
    have hlen := length_flatMap_rcs_le results
    rw [List.length_nil, hup] at hcalls
    obtain ⟨rs, hrs, hlines, -⟩ := readlines_eq hmax fd bufs s (by rw [hup]; omega)
    exact ⟨rs, hrs, by rw [hlines, hup]⟩
  have hiff := returned_collect_eq_iff (maxlen - 1) (ne_zero_of_pauses hpauses) []
  rw [flatMap_bytes_rcs, List.nil_append] at hiff
  constructor
  · intro h before after hsplit
    have hbufs : (delivered results).length + results.length <
        (List.replicate ((delivered results).length + results.length + 1)
          (List.Vector.replicate maxlen (0 : UInt8))).length := by
      rw [List.length_replicate]
      exact Nat.lt_succ_self _
    obtain ⟨rs, hrs, hret⟩ := h _ hbufs
    obtain ⟨rs', hrs', hlines⟩ := hrun _ hbufs
    rw [hrs] at hrs'
    cases hrs'
    rw [hlines] at hret
    have hsplit' : results.flatMap ReadResult.rcs =
        before.flatMap ReadResult.rcs ++ .error :: after.flatMap ReadResult.rcs := by
      rw [hsplit, List.flatMap_append, List.flatMap_cons]
      rfl
    have := hiff.mp hret _ _ hsplit'
    rwa [flatMap_bytes_rcs] at this
  · intro h bufs hbufs
    obtain ⟨rs, hrs, hlines⟩ := hrun bufs hbufs
    refine ⟨rs, hrs, ?_⟩
    rw [hlines]
    refine hiff.mpr fun pre post hpre => ?_
    obtain ⟨before, after, hsplit, hbefore⟩ := exists_eagain_of_error hpauses hpre
    rw [← hbefore, flatMap_bytes_rcs]
    exact h before after hsplit

end Pauses

/-- A client that pauses somewhere, and sends the rest and closes. -/
def pausing (results : List ReadResult) : State := ⟨MyRead.start, fun _ => results⟩

/-- A pause between two lines. -/
theorem readline_loses_nothing_between_lines : ∃ rs,
    readlines 5 (List.replicate 7 (Block.zero 8)) (pausing [.data [97, 10] (by decide) (by decide),
      .eagain, .data [98] (by decide) (by decide)]) = some rs ∧
      returned (rs.map Filled.line) = [97, 10, 98] := by
  refine (readline_loses_nothing_iff (by decide) le_rfl rfl ?_).mpr ?_ _ (by decide)
  · simp [pausing, ReadResult.Pauses, ReadResult.Flows]
  · intro before after hsplit
    rcases before with _ | ⟨r, _ | ⟨r', _ | ⟨r'', before⟩⟩⟩
    · cases hsplit
    · cases hsplit
      rfl
    · cases hsplit
    · cases before <;> cases hsplit

/-- A pause inside a line, as it is between two segments of a request: the beginning of
the line is gone. -/
theorem loses_line_begun : ¬ ∀ bufs : List (Block UInt8 8), 5 < bufs.length →
    ∃ rs, readlines 5 bufs (pausing [.data [97] (by decide) (by decide), .eagain,
        .data [98] (by decide) (by decide)]) = some rs ∧
      returned (rs.map Filled.line) = [97, 98] := by
  intro h
  obtain ⟨rs, hrs, hret⟩ := h (List.replicate 6 (Block.zero 8)) (by decide)
  have hrun : readlines 5 (List.replicate 6 (Block.zero 8))
      (pausing [.data [97] (by decide) (by decide), .eagain, .data [98] (by decide) (by decide)]) =
    some [⟨-1, 1, ⟨[97, 0, 0, 0, 0, 0, 0, 0], rfl⟩⟩, ⟨1, 1, ⟨[98, 0, 0, 0, 0, 0, 0, 0], rfl⟩⟩] := rfl
  rw [hrun] at hrs
  cases hrs
  exact absurd hret (by decide)

end WebServer
end UnixNetwork
