import UnixNetwork.WebSocket.Agreement

/-!
# Where `handshark` reads and writes

`handshark` of `websocket/epoll_websocket.c` once more, with every access to its arrays
checked: an index outside is a `Fault`, and what counts is that there is none.  Here `level`
is the `int` it is in the code, with `-1` as the end marker, and the loop condition reads
`si->recvbuffer[level]` before it looks for the marker.

`handshark_stays_inside_iff` says for which strings in `recvbuffer` all accesses stay inside.
`Confined` describes them by their lines.  A string that ends before the walk has met a key or
a blank line ends it with `recvbuffer[-1]`, and a line that is too long leaves `linebuf`; the
GUID needs room there too.  `handshark_of_indexed` says that the checked walk, where it goes
through, does what `EpollWebsocketC.handshark` does.
-/

namespace UnixNetwork
namespace WebSocket
namespace EpollWebsocketC

open Bytes
open Upgrade (crlf)

namespace Indexed

variable (O : OpenSSL)

/-! ## The code -/

/-- `si->recvbuffer[i]`. -/
def recvbufferAt (recvbuffer : Block UInt8 bufferLength) (i : ℤ) : Except Fault UInt8 :=
  if h : 0 ≤ i ∧ i < bufferLength then
    .ok (recvbuffer.get ⟨i.toNat, by have := h.2; omega⟩)
  else .error .outOfBounds

/-- `recvbuffer[i] == '\r' && recvbuffer[i+1] == '\n'`. -/
def lineEndAt (recvbuffer : Block UInt8 bufferLength) (i : ℤ) : Except Fault Bool := do
  let c ← recvbufferAt recvbuffer i
  if c = 13 then
    let d ← recvbufferAt recvbuffer (i + 1)
    return d = 10
  else return false

/-- `strlen(recvbuffer)`. -/
def recvbufferLen (recvbuffer : Block UInt8 bufferLength) : Except Fault ℕ :=
  if 0 ∈ recvbuffer.toList then .ok (cstr recvbuffer.toList).length else .error .outOfBounds

/-- `*(linebuf++) = c`.  Of `linebuf` the model has the bytes written since it was zeroed. -/
def put (linebuf : List UInt8) (c : UInt8) : Except Fault (List UInt8) :=
  if linebuf.length < 256 then .ok (linebuf ++ [c]) else .error .stackOverflow

/-- `linebuf` as a string: a zero has to be behind it. -/
def text (linebuf : List UInt8) : Except Fault (List UInt8) :=
  if linebuf.length < 256 then .ok linebuf else .error .stackOverflow

/-- The loop of `readline`, with the number of rounds until `level` is `len`. -/
def readlineLoop (recvbuffer : Block UInt8 bufferLength) :
    ℕ → ℕ → List UInt8 → Except Fault (ℤ × List UInt8)
  | 0, _, linebuf => .ok (-1, linebuf)
  | n + 1, level, linebuf => do
    if ← lineEndAt recvbuffer level then return ((level : ℤ) + 2, linebuf)
    else
      let linebuf ← put linebuf ((← recvbufferAt recvbuffer level))
      readlineLoop recvbuffer n (level + 1) linebuf

/-- `readline(si->recvbuffer, level, linebuf)`. -/
def readline (recvbuffer : Block UInt8 bufferLength) (level : ℕ) :
    Except Fault (ℤ × List UInt8) := do
  let len ← recvbufferLen recvbuffer
  readlineLoop recvbuffer (len - level) level []

/-- The body of the `if`: the GUID behind the line, the digest from offset 19 on, its encoding,
and the response. -/
def answer (line : List UInt8) : Except Fault (List UInt8) := do
  let linebuf ← text (line ++ guid)
  if linebuf.length < 19 then .error .outOfBounds
  else
    let secAccept ← base64Encode O (cstr (O.sha1 (linebuf.drop 19)))
    let head := switchingProtocols secAccept
    if head.length < bufferLength then .ok head else .error .stackOverflow

/-- The `do`/`while`. -/
def handsharkLoop (recvbuffer : Block UInt8 bufferLength) :
    ℕ → ℕ → Except Fault (Option (List UInt8))
  | 0, _ => .error .outOfFuel
  | fuel + 1, level => do
    let (level, linebuf) ← readline recvbuffer level
    let line ← text linebuf
    if secWebSocketKey <:+: line then
      let head ← answer O line
      return some head
    else
      let lineEnd ← lineEndAt recvbuffer level
      if !lineEnd && level ≠ -1 then handsharkLoop recvbuffer fuel level.toNat
      else return none

/-- `handshark`, with the response if there is one. -/
def handshark (recvbuffer : Block UInt8 bufferLength) : Except Fault (Option (List UInt8)) :=
  handsharkLoop O recvbuffer (bufferLength + 1) 0

variable {O}

/-! ## One access -/

@[simp] theorem ok_bind {α β : Type} (a : α) (f : α → Except Fault β) : (.ok a >>= f) = f a := rfl

@[simp] theorem error_bind {α β : Type} (e : Fault) (f : α → Except Fault β) :
    (.error e >>= f) = .error e := rfl

@[simp] theorem pure_eq_ok {α : Type} (a : α) : (pure a : Except Fault α) = .ok a := rfl

section Access

variable {recvbuffer : Block UInt8 bufferLength} {level : ℕ}

theorem recvbufferAt_eq {c : UInt8} {t : List UInt8} (h : recvbuffer.toList.drop level = c :: t) :
    recvbufferAt recvbuffer level = .ok c := by
  have hlt : level < recvbuffer.toList.length := by
    by_contra hle
    rw [List.drop_of_length_le (not_lt.mp hle)] at h
    cases h
  have hlt' : level < bufferLength := recvbuffer.toList_length ▸ hlt
  rw [List.drop_eq_getElem_cons hlt] at h
  have hget : recvbuffer.get ⟨level, hlt'⟩ = recvbuffer.toList[level] :=
    List.Vector.get_eq_get_toList _ _
  rw [recvbufferAt, dif_pos ⟨by omega, by exact_mod_cast hlt'⟩]
  simp only [Int.toNat_natCast]
  rw [hget, (List.cons.inj h).1]

theorem drop_succ_of_drop {c : UInt8} {l t : List UInt8} (h : l.drop level = c :: t) :
    l.drop (level + 1) = t := by
  rw [← List.drop_drop, h, List.drop_succ_cons, List.drop_zero]

/-- A test for a line end stays inside the buffer, since a zero is behind the string. -/
theorem lineEndAt_eq {l tail : List UInt8} (h : recvbuffer.toList.drop level = l ++ 0 :: tail) :
    lineEndAt recvbuffer level = .ok (decide (crlf <+: l)) := by
  cases l with
  | nil =>
    rw [lineEndAt, recvbufferAt_eq h]
    rfl
  | cons c rest =>
    rw [lineEndAt, recvbufferAt_eq h]
    by_cases hc : c = 13
    · obtain ⟨d, t, hd⟩ := List.exists_cons_of_ne_nil
        (List.append_ne_nil_of_right_ne_nil rest (List.cons_ne_nil (0 : UInt8) tail))
      have hnext : recvbufferAt recvbuffer ((level : ℤ) + 1) = .ok d :=
        recvbufferAt_eq ((drop_succ_of_drop h).trans hd)
      have hhead : d = 10 ↔ rest.head? = some 10 := by
        cases rest with
        | nil =>
          cases hd
          decide
        | cons x rest =>
          rw [(List.cons.inj hd).1, List.head?_cons, Option.some.injEq]
      simp [hc, hnext, crlf_isPrefix_cons, hhead]
    · simp [hc, crlf_isPrefix_cons]

/-- The `int` that `readline` returns. -/
def levelOf : Option ℕ → ℤ
  | none => -1
  | some level => level

/-- **`readline` copies the line**, if it fits. -/
theorem readlineLoop_eq {l tail : List UInt8} (h : recvbuffer.toList.drop level = l ++ 0 :: tail)
    {linebuf : List UInt8} (hbuf : linebuf.length ≤ 256) :
    readlineLoop recvbuffer l.length level linebuf =
      if linebuf.length + (readlineFrom l level).2.length ≤ 256 then
        .ok (levelOf (readlineFrom l level).1, linebuf ++ (readlineFrom l level).2)
      else .error .stackOverflow := by
  induction l generalizing level linebuf with
  | nil => simp [readlineLoop, readlineFrom, levelOf, hbuf]
  | cons c rest ih =>
    have hend : lineEndAt recvbuffer level = .ok (decide (crlf <+: c :: rest)) := lineEndAt_eq h
    have hc : recvbufferAt recvbuffer level = .ok c := recvbufferAt_eq h
    rw [List.length_cons, readlineLoop, hend]
    by_cases hcrlf : crlf <+: c :: rest
    · have hline : readlineFrom (c :: rest) level = (some (level + 2), []) :=
        if_pos (crlf_isPrefix_cons.mp hcrlf)
      simp [hcrlf, hline, hbuf, levelOf]
    · have hline : readlineFrom (c :: rest) level =
          ((readlineFrom rest (level + 1)).1, c :: (readlineFrom rest (level + 1)).2) :=
        if_neg fun hcr => hcrlf (crlf_isPrefix_cons.mpr hcr)
      rw [hline, hc]
      simp only [hcrlf, ok_bind, decide_false, Bool.false_eq_true, if_false]
      by_cases hroom : linebuf.length < 256
      · have hput : put linebuf c = .ok (linebuf ++ [c]) := if_pos hroom
        have hlen : (linebuf ++ [c]).length = linebuf.length + 1 := by
          rw [List.length_append, List.length_singleton]
        rw [hput, ok_bind, ih (drop_succ_of_drop h) (by omega), hlen, List.length_cons,
          List.append_assoc]
        simp only [Nat.add_assoc, Nat.add_comm 1, List.singleton_append]
      · have hput : put linebuf c = .error .stackOverflow := if_neg hroom
        rw [hput, error_bind, if_neg]
        rw [List.length_cons]
        omega

theorem readline_eq {l tail : List UInt8} (hstr : 0 ∈ recvbuffer.toList)
    (hlen : (cstr recvbuffer.toList).length = level + l.length)
    (h : recvbuffer.toList.drop level = l ++ 0 :: tail) :
    readline recvbuffer level =
      if (readlineFrom l level).2.length ≤ 256 then
        .ok (levelOf (readlineFrom l level).1, (readlineFrom l level).2)
      else .error .stackOverflow := by
  have hlenEq : recvbufferLen recvbuffer = .ok (level + l.length) :=
    (if_pos hstr).trans (congrArg Except.ok hlen)
  rw [readline, hlenEq, ok_bind, Nat.add_sub_cancel_left, readlineLoop_eq h (by simp)]
  simp only [List.length_nil, Nat.zero_add, List.nil_append]

end Access

/-! ## The answer -/

/-- The GUID fits behind the line, and there is a digest text to encode. -/
def Answerable (O : OpenSSL) (line : List UInt8) : Prop :=
  line.length + guid.length < 256 ∧
    ((O.sha1 ((line ++ guid).drop 19)).head? ≠ some 0 ∨ O.base64Bio [] ≠ [])

theorem cstr_eq_nil_iff {l : List UInt8} (hl : l ≠ []) : cstr l = [] ↔ l.head? = some 0 := by
  cases l with
  | nil => exact absurd rfl hl
  | cons c l => simp [cstr, List.takeWhile_cons]

/-- `base64_encode` on a digest text. -/
theorem base64Encode_ok_iff (hbio : FilterIsBase64 O) {m : List UInt8} (hm : m.length ≤ 20) :
    (∃ acc, base64Encode O m = .ok acc) ↔ m ≠ [] ∨ O.base64Bio [] ≠ [] := by
  constructor
  · rintro ⟨acc, hacc⟩
    by_contra hnone
    rw [not_or, not_not, not_not] at hnone
    obtain ⟨rfl, hnil⟩ := hnone
    rw [base64Encode, hnil] at hacc
    cases hacc
  · intro h
    obtain hok | ⟨rfl, herr⟩ := base64Encode_of_filter hbio hm
    · exact ⟨_, hok⟩
    · obtain hne | hsome := h
      · exact absurd rfl hne
      · obtain hdata | ⟨-, hdata⟩ := hbio [] (by decide)
        · exact ⟨_, by rw [base64Encode, hdata]; rfl⟩
        · exact absurd hdata hsome

theorem answer_ok_iff (hbio : FilterIsBase64 O) {line : List UInt8}
    (hkey : secWebSocketKey <:+: line) :
    (∃ head, answer O line = .ok head) ↔ Answerable O line := by
  have hguid : guid.length = 36 := by decide
  have hlong : secWebSocketKey.length = 17 := by decide
  have hline := hkey.length_le
  have hdigest : O.sha1 ((line ++ guid).drop 19) ≠ [] := by
    intro h
    have := O.length_sha1 ((line ++ guid).drop 19)
    rw [h] at this
    cases this
  have hshort : (cstr (O.sha1 ((line ++ guid).drop 19))).length ≤ 20 := by
    rw [← O.length_sha1 ((line ++ guid).drop 19)]
    exact cstr_length_le _
  have hbase := base64Encode_ok_iff hbio hshort
  rw [Ne, cstr_eq_nil_iff hdigest] at hbase
  have hlen : (line ++ guid).length = line.length + 36 := by rw [List.length_append, hguid]
  by_cases hroom : line.length + guid.length < 256
  · have htext : text (line ++ guid) = .ok (line ++ guid) := if_pos (by omega)
    rw [Answerable, and_iff_right hroom, ← hbase, answer, htext, ok_bind, if_neg (by omega)]
    constructor
    · rintro ⟨head, hhead⟩
      cases hacc : base64Encode O (cstr (O.sha1 ((line ++ guid).drop 19))) with
      | ok acc => exact ⟨acc, rfl⟩
      | error e =>
        rw [hacc] at hhead
        cases hhead
    · rintro ⟨acc, hacc⟩
      have hsmall : acc.length ≤ 31 := by
        obtain herr | ⟨acc', hle, hacc'⟩ :=
          base64Encode_cases (O := O) (cstr (O.sha1 ((line ++ guid).drop 19)))
        · cases herr.symm.trans hacc
        · cases hacc'.symm.trans hacc
          exact hle
      rw [hacc, ok_bind]
      refine ⟨switchingProtocols acc, if_pos ?_⟩
      rw [length_switchingProtocols]
      show acc.length + 101 < 1024
      omega
  · have htext : text (line ++ guid) = .error .stackOverflow := if_neg (by omega)
    rw [answer, htext]
    refine iff_of_false ?_ fun h => hroom h.1
    rintro ⟨head, hhead⟩
    cases hhead

/-! ## The walk -/

section Walk

variable {recvbuffer : Block UInt8 bufferLength} {level : ℕ} {l tail : List UInt8}

/-- What the walk has before it further on. -/
theorem drop_of_le (h : recvbuffer.toList.drop level = l ++ 0 :: tail) {next : ℕ}
    (hle : level ≤ next) (hle' : next ≤ level + l.length) :
    recvbuffer.toList.drop next = l.drop (next - level) ++ 0 :: tail := by
  have hnext : level + (next - level) = next := by omega
  have := congrArg (List.drop (next - level)) h
  rwa [List.drop_drop, List.drop_append_of_le_length (by omega), hnext] at this

/-- One round of the walk. -/
theorem handsharkLoop_succ (hstr : 0 ∈ recvbuffer.toList)
    (hlen : (cstr recvbuffer.toList).length = level + l.length)
    (h : recvbuffer.toList.drop level = l ++ 0 :: tail) (fuel : ℕ) :
    handsharkLoop O recvbuffer (fuel + 1) level =
      if (readlineFrom l level).2.length < 256 then
        if secWebSocketKey <:+: (readlineFrom l level).2 then
          (answer O (readlineFrom l level).2).map some
        else
          match (readlineFrom l level).1 with
          | none => .error .outOfBounds
          | some next =>
            if crlf <+: l.drop (next - level) then .ok none
            else handsharkLoop O recvbuffer fuel next
      else .error .stackOverflow := by
  rw [handsharkLoop, readline_eq hstr hlen h]
  by_cases hroom : (readlineFrom l level).2.length < 256
  · have htext : text (readlineFrom l level).2 = .ok (readlineFrom l level).2 := if_pos hroom
    rw [if_pos hroom, if_pos hroom.le, ok_bind]
    simp only
    rw [htext, ok_bind]
    split
    · cases answer O (readlineFrom l level).2 <;> rfl
    · cases hnext : (readlineFrom l level).1 with
      | none => rfl
      | some next =>
        have hb := readlineFrom_some hnext
        have hend : lineEndAt recvbuffer next = .ok (decide (crlf <+: l.drop (next - level))) :=
          lineEndAt_eq (drop_of_le h (by omega) (by omega))
        have hne : (next : ℤ) ≠ -1 := by omega
        by_cases hblank : crlf <+: l.drop (next - level) <;> simp [levelOf, hend, hblank, hne]
  · have htext : text (readlineFrom l level).2 = .error .stackOverflow := if_neg hroom
    rw [if_neg hroom]
    split
    · rw [ok_bind]
      simp only
      rw [htext, error_bind]
    · rfl

/-- The strings on which the walk stays inside its arrays, from a line start on: the first line
with the name in it can be answered, or a blank line comes before, and no line is too long. -/
inductive Confined (O : OpenSSL) : List UInt8 → Prop
  | key {line after : List UInt8} : ¬ crlf <:+: line → after = [] ∨ crlf <+: after →
      secWebSocketKey <:+: line → Answerable O line → Confined O (line ++ after)
  | blank {line after : List UInt8} : ¬ crlf <:+: line → ¬ secWebSocketKey <:+: line →
      line.length < 256 → Confined O (line ++ (crlf ++ (crlf ++ after)))
  | line {line after : List UInt8} : ¬ crlf <:+: line → ¬ secWebSocketKey <:+: line →
      line.length < 256 → Confined O after → Confined O (line ++ (crlf ++ after))

/-- What `readline` finds, by the lines of the string. -/
theorem readlineFrom_cases (l : List UInt8) (level : ℕ) :
    (¬ crlf <:+: l ∧ readlineFrom l level = (none, l)) ∨
      ∃ line after, ¬ crlf <:+: line ∧ l = line ++ (crlf ++ after) ∧
        readlineFrom l level = (some (level + line.length + 2), line) := by
  by_cases h : crlf <:+: l
  · obtain ⟨line, after, hline, rfl⟩ := Split.exists_first_piece (by decide) h
    exact .inr ⟨line, after, hline, rfl, readlineFrom_append hline after level⟩
  · exact .inl ⟨h, readlineFrom_of_not_infix h level⟩

/-- The first line end of a string is at one place. -/
theorem crlf_inj {p q s t : List UInt8} (hp : ¬ crlf <:+: p) (hq : ¬ crlf <:+: q)
    (h : p ++ (crlf ++ s) = q ++ (crlf ++ t)) : p = q ∧ s = t := by
  have hline : p = q := by
    have := congrArg (fun l => (readlineFrom l 0).2) h
    simpa only [readlineFrom_append hp, readlineFrom_append hq] using this
  subst hline
  exact ⟨rfl, List.append_cancel_left (List.append_cancel_left h)⟩

theorem Answerable.length_lt {line : List UInt8} (h : Answerable O line) : line.length < 256 := by
  have := h.1
  omega

theorem confined_of_not_infix (hl : ¬ crlf <:+: l) :
    Confined O l ↔ secWebSocketKey <:+: l ∧ Answerable O l := by
  constructor
  · intro h
    cases h with
    | @key line after _ hafter hkey hans =>
      obtain rfl | hcrlf := hafter
      · rw [List.append_nil]
        exact ⟨hkey, hans⟩
      · exact absurd (hcrlf.isInfix.trans (List.suffix_append _ _).isInfix) hl
    | @blank line after => exact absurd ⟨line, crlf ++ after, List.append_assoc _ _ _⟩ hl
    | @line line after => exact absurd ⟨line, after, List.append_assoc _ _ _⟩ hl
  · rintro ⟨hkey, hans⟩
    have := Confined.key hl (.inl rfl) hkey hans
    rwa [List.append_nil] at this

theorem confined_append {line after : List UInt8} (hline : ¬ crlf <:+: line) :
    Confined O (line ++ (crlf ++ after)) ↔
      if secWebSocketKey <:+: line then Answerable O line
      else line.length < 256 ∧ (crlf <+: after ∨ Confined O after) := by
  constructor
  · intro h
    generalize hl : line ++ (crlf ++ after) = l at h
    cases h with
    | @key line' after' hline' hafter hkey hans =>
      obtain rfl | ⟨t, rfl⟩ := hafter
      · rw [List.append_nil] at hl
        exact absurd ⟨line, after, (List.append_assoc _ _ _).trans hl⟩ hline'
      · obtain ⟨rfl, rfl⟩ := crlf_inj hline hline' hl
        rwa [if_pos hkey]
    | blank hline' hkey hlen =>
      obtain ⟨rfl, rfl⟩ := crlf_inj hline hline' hl
      rw [if_neg hkey]
      exact ⟨hlen, .inl (List.prefix_append _ _)⟩
    | line hline' hkey hlen hafter =>
      obtain ⟨rfl, rfl⟩ := crlf_inj hline hline' hl
      rw [if_neg hkey]
      exact ⟨hlen, .inr hafter⟩
  · intro h
    split at h
    · exact .key hline (.inr (List.prefix_append _ _)) ‹_› h
    · obtain ⟨hlen, ⟨t, rfl⟩ | hafter⟩ := h
      · exact .blank hline ‹_› hlen
      · exact .line hline ‹_› hlen hafter

theorem answer_ne_outOfFuel (line : List UInt8) : answer O line ≠ .error .outOfFuel := by
  unfold answer text
  split
  · rw [ok_bind]
    split
    · exact fun h => nomatch h
    · obtain herr | ⟨acc, -, hacc⟩ :=
        base64Encode_cases (O := O) (cstr (O.sha1 ((line ++ guid).drop 19)))
      · rw [herr, error_bind]
        exact fun h => nomatch h
      · rw [hacc, ok_bind]
        simp only
        split <;> exact fun h => nomatch h
  · exact fun h => nomatch h

/-- A run that ends, and stays inside its arrays just under a condition. -/
def InsideIff (run : Except Fault (Option (List UInt8))) (P : Prop) : Prop :=
  run ≠ .error .outOfFuel ∧ ((∃ response, run = .ok response) ↔ P)

theorem insideIff_ok (response : Option (List UInt8)) {P : Prop} (h : P) :
    InsideIff (.ok response) P :=
  ⟨(fun h => nomatch h), iff_of_true ⟨response, rfl⟩ h⟩

theorem insideIff_error {e : Fault} (he : e ≠ .outOfFuel) {P : Prop} (h : ¬ P) :
    InsideIff (.error e) P := by
  refine ⟨fun heq => he (Except.error.inj heq), iff_of_false ?_ h⟩
  rintro ⟨response, hok⟩
  cases hok

theorem insideIff_answer (hbio : FilterIsBase64 O) {line : List UInt8}
    (hkey : secWebSocketKey <:+: line) :
    InsideIff ((answer O line).map some) (Answerable O line) := by
  rw [← answer_ok_iff hbio hkey]
  cases h : answer O line with
  | ok head => exact insideIff_ok _ ⟨head, rfl⟩
  | error e =>
    refine insideIff_error (fun he => ?_) ?_
    · exact answer_ne_outOfFuel line (h.trans (congrArg Except.error he))
    · rintro ⟨head, hhead⟩
      cases hhead

/-- **The walk, from a line start on.**  Each line read leaves less of the string. -/
theorem handsharkLoop_confined (hbio : FilterIsBase64 O) (hstr : 0 ∈ recvbuffer.toList)
    (hlen : (cstr recvbuffer.toList).length = level + l.length)
    (h : recvbuffer.toList.drop level = l ++ 0 :: tail) {fuel : ℕ} (hfuel : l.length < fuel) :
    InsideIff (handsharkLoop O recvbuffer fuel level) (Confined O l) := by
  induction fuel generalizing level l with
  | zero => omega
  | succ fuel ih =>
    rw [handsharkLoop_succ hstr hlen h]
    obtain ⟨hl, hread⟩ | ⟨line, after, hline, rfl, hread⟩ := readlineFrom_cases l level
    · -- the last line
      rw [hread, confined_of_not_infix hl]
      simp only
      by_cases hkey : secWebSocketKey <:+: l
      · rw [and_iff_right hkey, if_pos hkey]
        split
        · exact insideIff_answer hbio hkey
        · exact insideIff_error (by decide) fun hans => absurd hans.length_lt ‹_›
      · rw [if_neg hkey]
        split <;> exact insideIff_error (by decide) fun hans => hkey hans.1
    · rw [hread, confined_append hline]
      simp only
      by_cases hkey : secWebSocketKey <:+: line
      · rw [if_pos hkey, if_pos hkey]
        split
        · exact insideIff_answer hbio hkey
        · exact insideIff_error (by decide) fun hans => absurd hans.length_lt ‹_›
      · rw [if_neg hkey, if_neg hkey]
        have hcrlf : crlf.length = 2 := rfl
        have hnext : level + line.length + 2 - level = (line ++ crlf).length := by
          rw [List.length_append, hcrlf]
          omega
        have hrest : (line ++ (crlf ++ after)).drop (line ++ crlf).length = after := by
          rw [← List.append_assoc, List.drop_left]
        rw [hnext, hrest]
        simp only [List.length_append, hcrlf] at hlen hfuel
        split
        · rename_i hroom
          rw [and_iff_right hroom]
          split
          · exact insideIff_ok none (.inl ‹_›)
          · rename_i hblank
            rw [or_iff_right hblank]
            refine ih (by omega) ?_ (by omega)
            have := congrArg (List.drop (line ++ crlf).length) h
            rwa [List.drop_drop, List.append_assoc line, List.append_assoc crlf,
              ← List.append_assoc line, List.drop_left, List.length_append, hcrlf,
              ← Nat.add_assoc] at this
        · exact insideIff_error (by decide) fun hroom => absurd hroom.1 ‹_›

end Walk

/-! ## The same walk -/

section Same

variable {recvbuffer sendbuffer : Block UInt8 bufferLength} {level : ℕ} {l tail : List UInt8}
variable {response : Option (List UInt8)}

theorem answer_of_indexed {line head : List UInt8} (h : answer O line = .ok head) :
    EpollWebsocketC.answer O line = .ok head := by
  rw [answer, text] at h
  split at h
  · rename_i hroom
    rw [ok_bind] at h
    split at h
    · cases h
    · rw [EpollWebsocketC.answer, if_neg (not_le.mpr hroom)]
      cases hacc : base64Encode O (cstr (O.sha1 ((line ++ guid).drop 19))) with
      | error e =>
        rw [hacc] at h
        cases h
      | ok acc =>
        rw [hacc, ok_bind] at h
        simp only at h
        split at h
        · cases h
          exact congrArg (Except.map switchingProtocols) hacc
        · cases h
  · cases h

theorem crlf_isPrefix_append_zero (l t : List UInt8) : crlf <+: l ++ 0 :: t ↔ crlf <+: l := by
  match l with
  | [] => simp [crlf]
  | [c] => simp [crlf]
  | c :: d :: rest => simp [crlf]

/-- The unchecked walk reads the same memory, and on behind it. -/
theorem drop_allbuf (h : recvbuffer.toList.drop level = l ++ 0 :: tail) :
    (allbuf recvbuffer sendbuffer).drop level =
      l ++ 0 :: (tail ++ (sendbuffer.toList ++ [0, 0, 0, 0])) := by
  have hin : level ≤ recvbuffer.toList.length := by
    by_contra hlt
    rw [List.drop_of_length_le (not_le.mp hlt).le] at h
    exact absurd h.symm (List.append_ne_nil_of_right_ne_nil l (List.cons_ne_nil 0 tail))
  rw [allbuf, List.append_assoc, List.drop_append_of_le_length hin, h, List.append_assoc,
    List.cons_append]

theorem readline_allbuf (hstr : 0 ∈ recvbuffer.toList)
    (hlen : (cstr recvbuffer.toList).length = level + l.length)
    (h : recvbuffer.toList.drop level = l ++ 0 :: tail) :
    EpollWebsocketC.readline (allbuf recvbuffer sendbuffer) level = readlineFrom l level := by
  obtain ⟨t, ht⟩ := exists_eq_cstr_append hstr
  have hcstr : cstr (allbuf recvbuffer sendbuffer) = cstr recvbuffer.toList := by
    have hall : (allbuf recvbuffer sendbuffer).drop 0 =
        cstr recvbuffer.toList ++ 0 :: (t ++ (sendbuffer.toList ++ [0, 0, 0, 0])) :=
      drop_allbuf ht
    rw [List.drop_zero] at hall
    rw [hall, cstr_append_zero (zero_notMem_cstr _)]
  have hrest : (cstr recvbuffer.toList).drop level = l := by
    rw [ht, List.drop_append_of_le_length (by omega)] at h
    exact (List.append_inj h (by rw [List.length_drop]; omega)).1
  rw [EpollWebsocketC.readline, hcstr, hrest]

theorem getD_allbuf_iff (h : recvbuffer.toList.drop level = l ++ 0 :: tail) :
    (allbuf recvbuffer sendbuffer).getD level 0 = 13 ∧
      (allbuf recvbuffer sendbuffer).getD (level + 1) 0 = 10 ↔ crlf <+: l := by
  rw [← crlf_isPrefix_drop, drop_allbuf h, crlf_isPrefix_append_zero]

theorem handsharkLoop_of_indexed (hstr : 0 ∈ recvbuffer.toList)
    (hlen : (cstr recvbuffer.toList).length = level + l.length)
    (h : recvbuffer.toList.drop level = l ++ 0 :: tail) {fuel fuel' : ℕ} (hle : fuel ≤ fuel')
    (hok : handsharkLoop O recvbuffer fuel level = .ok response) :
    EpollWebsocketC.handsharkLoop O (allbuf recvbuffer sendbuffer) fuel' level = .ok response := by
  induction fuel generalizing level l fuel' with
  | zero => cases hok
  | succ fuel ih =>
    obtain ⟨fuel', rfl⟩ : ∃ k, fuel' = k + 1 := ⟨fuel' - 1, by omega⟩
    rw [handsharkLoop_succ hstr hlen h] at hok
    rw [EpollWebsocketC.handsharkLoop, readline_allbuf hstr hlen h]
    split at hok
    · rename_i hroom
      rw [if_neg (not_le.mpr hroom)]
      by_cases hkey : secWebSocketKey <:+: (readlineFrom l level).2
      · rw [if_pos hkey] at hok ⊢
        cases hans : answer O (readlineFrom l level).2 with
        | error e =>
          rw [hans] at hok
          cases hok
        | ok head =>
          rw [hans] at hok
          rw [answer_of_indexed hans]
          exact hok
      · rw [if_neg hkey] at hok ⊢
        cases hnext : (readlineFrom l level).1 with
        | none =>
          rw [hnext] at hok
          cases hok
        | some next =>
          rw [hnext] at hok
          have hb := readlineFrom_some hnext
          have hdrop := drop_of_le h (Nat.le_of_add_right_le hb.1) hb.2
          simp only at hok ⊢
          rw [← if_congr (getD_allbuf_iff hdrop) rfl rfl] at hok
          split at hok
          · rw [if_pos ‹_›]
            exact hok
          · rw [if_neg ‹_›]
            refine ih ?_ hdrop (by omega) hok
            rw [List.length_drop]
            omega
    · cases hok

end Same

/-- A walk that stays inside does what `handshark` does. -/
theorem handshark_of_indexed {recvbuffer : Block UInt8 bufferLength} (hstr : 0 ∈ recvbuffer.toList)
    (sendbuffer : Block UInt8 bufferLength) {response : Option (List UInt8)}
    (h : handshark O recvbuffer = .ok response) :
    EpollWebsocketC.handshark O recvbuffer sendbuffer = .ok response := by
  obtain ⟨tail, htail⟩ := exists_eq_cstr_append hstr
  refine handsharkLoop_of_indexed hstr (Nat.zero_add _).symm htail ?_ h
  simp only [allbuf, List.length_append, recvbuffer.toList_length]
  omega

/-- **When `handshark` stays inside its arrays.**  It always ends. -/
theorem handshark_stays_inside_iff (O : OpenSSL) (hbio : FilterIsBase64 O)
    (recvbuffer : Block UInt8 bufferLength) (hstr : 0 ∈ recvbuffer.toList) :
    handshark O recvbuffer ≠ .error .outOfFuel ∧
      ((∃ response, handshark O recvbuffer = .ok response) ↔
        Confined O (cstr recvbuffer.toList)) := by
  obtain ⟨tail, htail⟩ := exists_eq_cstr_append hstr
  have hlen := cstr_length_le recvbuffer.toList
  rw [recvbuffer.toList_length] at hlen
  exact handsharkLoop_confined hbio hstr (Nat.zero_add _).symm htail (Nat.lt_succ_of_le hlen)

/-- The example of the RFC, which is answered. -/
theorem handshark_stays_inside_sample :
    let recvbuffer : Block UInt8 bufferLength :=
      ⟨padTo bufferLength sampleRequest, length_padTo (by decide +kernel)⟩
    (∃ response, handshark sampleOpenSSL recvbuffer = .ok response) ∧
      Confined sampleOpenSSL (cstr recvbuffer.toList) := by
  intro recvbuffer
  have hok : (handshark sampleOpenSSL recvbuffer).isOk = true := by decide +kernel
  have hresponse : ∃ response, handshark sampleOpenSSL recvbuffer = .ok response := by
    cases h : handshark sampleOpenSSL recvbuffer with
    | ok response => exact ⟨response, rfl⟩
    | error e =>
      rw [h] at hok
      cases hok
  exact ⟨hresponse, (handshark_stays_inside_iff _ filterIsBase64_sampleOpenSSL recvbuffer
    (by decide +kernel)).2.mp hresponse⟩

/-- A request line that came alone: `readline` finds no further line, and `recvbuffer[-1]` is
read. -/
theorem handshark_leaves_recvbuffer :
    let recvbuffer : Block UInt8 bufferLength :=
      ⟨padTo bufferLength (ascii "GET / HTTP/1.1\r\n"), length_padTo (by decide +kernel)⟩
    0 ∈ recvbuffer.toList ∧ handshark sampleOpenSSL recvbuffer = .error .outOfBounds := by
  refine ⟨by decide +kernel, ?_⟩
  rfl

end Indexed

end EpollWebsocketC
end WebSocket
end UnixNetwork
