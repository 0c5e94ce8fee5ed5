import UnixNetwork.Protocol.Rfc3986
import UnixNetwork.WebServer.Requests

/-!
# URL coding

`UrlEncode` of `webserver/urlencode_urldecode.cpp`, and the pair of it and `UrlDecode`.
`websocket/do_string.h` has the same four functions in its namespace `urldecode_urlencode`.

`url_coding_round_trip` says that what was encoded is decoded again.  What `UrlDecode` takes
besides is less clear: `FromHex` takes every letter for a digit, so that the decoder stops at
escapes with other bytes only (`urlDecode_ok_iff`).  `accepts_exactly_iff` says for which
strings this makes no difference.
-/

namespace UnixNetwork
namespace WebServer

open Bytes Rfc3986

/-! ## `UrlEncode` -/

/-- `ToHex`. -/
def toHex (x : UInt8) : UInt8 := if x > 9 then x + 55 else x + 48

/-- `UrlEncode`. -/
def urlEncode : List UInt8 → List UInt8
  | [] => []
  | c :: rest =>
    if isalnum c ∨ c = 45 ∨ c = 95 ∨ c = 46 ∨ c = 126 then c :: urlEncode rest
    else if c = 32 then 43 :: urlEncode rest
    else 37 :: toHex (c >>> 4) :: toHex (c % 16) :: urlEncode rest

end WebServer

namespace WebSocket.UrldecodeUrlencode

/-- `ToHex` of `websocket/do_string.h`, as the three below. -/
def toHex (x : UInt8) : UInt8 := WebServer.toHex x

def fromHex (x : UInt8) : Except WebServer.Fault UInt8 := WebServer.fromHex x

def urlEncode (str : List UInt8) : List UInt8 := WebServer.urlEncode str

def urlDecode (str : List UInt8) : Except WebServer.Fault (List UInt8) := WebServer.urlDecode str

end WebSocket.UrldecodeUrlencode

namespace WebServer

open Bytes Rfc3986

/-- What `UrlEncode` writes. -/
def EncodedChar (c : UInt8) : Prop := isalnum c ∨ c ∈ ascii "-_.~+%"

instance (c : UInt8) : Decidable (EncodedChar c) := inferInstanceAs (Decidable (_ ∨ _))

/-! ### One byte -/

/-- The digits of a byte, which are read back as the byte. -/
theorem escape_toHex : ∀ c : UInt8,
    EncodedChar (toHex (c >>> 4)) ∧ EncodedChar (toHex (c % 16)) ∧
      escape (toHex (c >>> 4)) (toHex (c % 16)) = .ok c :=
  forall_byte (by decide +kernel)

/-- The bytes that stand for themselves. -/
theorem unescaped_ne : ∀ c : UInt8, isalnum c ∨ c = 45 ∨ c = 95 ∨ c = 46 ∨ c = 126 →
    EncodedChar c ∧ c ≠ 43 ∧ c ≠ 37 :=
  forall_byte (by decide +kernel)

/-! ### The round trip -/

theorem encodedChar_of_mem {s : List UInt8} {c : UInt8} (h : c ∈ urlEncode s) : EncodedChar c := by
  fun_induction urlEncode s with
  | case1 => cases h
  | case2 d rest hd ih =>
    rcases List.mem_cons.mp h with rfl | h
    · exact (unescaped_ne c hd).1
    · exact ih h
  | case3 rest _ ih =>
    rcases List.mem_cons.mp h with rfl | h
    · decide
    · exact ih h
  | case4 d rest _ _ ih =>
    obtain ⟨hhigh, hlow, -⟩ := escape_toHex d
    rcases List.mem_cons.mp h with rfl | h
    · decide
    rcases List.mem_cons.mp h with rfl | h
    · exact hhigh
    rcases List.mem_cons.mp h with rfl | h
    · exact hlow
    · exact ih h

/-- What was encoded is decoded again.  Induction on the bytes, each of which `UrlDecode` takes in
one round. -/
theorem urlDecode_urlEncode (s : List UInt8) : urlDecode (urlEncode s) = .ok s := by
  rw [urlDecode_eq_ok_iff]
  fun_induction urlEncode s with
  | case1 => exact .nil
  | case2 c rest hc ih =>
    obtain ⟨-, hplus, hpercent⟩ := unescaped_ne c hc
    exact .plain hplus hpercent ih
  | case3 rest _ ih => exact .plus ih
  | case4 c rest _ _ ih => exact .escape (escape_toHex c).2.2 ih

/-- **URL coding is a round trip**, in both copies. -/
theorem url_coding_round_trip :
    ((∀ s, (∀ c ∈ urlEncode s, EncodedChar c) ∧ urlDecode (urlEncode s) = .ok s) ∧
      Function.Injective urlEncode) ∧
    (∀ s, (∀ c ∈ WebSocket.UrldecodeUrlencode.urlEncode s, EncodedChar c) ∧
      WebSocket.UrldecodeUrlencode.urlDecode (WebSocket.UrldecodeUrlencode.urlEncode s) = .ok s) ∧
      Function.Injective WebSocket.UrldecodeUrlencode.urlEncode := by
  have hround : ∀ s, (∀ c ∈ urlEncode s, EncodedChar c) ∧ urlDecode (urlEncode s) = .ok s :=
    fun s => ⟨fun _ => encodedChar_of_mem, urlDecode_urlEncode s⟩
  have hinj : Function.Injective urlEncode := by
    intro s t h
    have hs := urlDecode_urlEncode s
    rw [h, urlDecode_urlEncode t] at hs
    exact (Except.ok.inj hs).symm
  exact ⟨⟨hround, hinj⟩, hround, hinj⟩

/-! ## What `UrlDecode` accepts -/

/-- The two bytes of an escape are letters or digits. -/
def Readable : Token → Prop
  | .escape x y => isalnum x ∧ isalnum y
  | .broken _ => False
  | .plain _ => True

/-- `FromHex` takes the letters and digits. -/
theorem fromHex_cases : ∀ c : UInt8,
    (∃ v, fromHex c = .ok v) ∧ isalnum c = true ∨
      fromHex c = .error .assertion ∧ isalnum c = false := by
  have htable : ∀ c : UInt8, fromHex c = .error .assertion ↔ isalnum c = false :=
    forall_byte (by decide +kernel)
  intro c
  by_cases h : fromHex c = .error .assertion
  · exact .inr ⟨h, (htable c).mp h⟩
  · refine .inl ⟨?_, by simpa using mt (htable c).mpr h⟩
    unfold fromHex at h ⊢
    split_ifs at h ⊢
    · exact ⟨_, rfl⟩
    · exact ⟨_, rfl⟩
    · exact ⟨_, rfl⟩
    · exact absurd rfl h

/-- The digits are worth what they say. -/
theorem fromHex_of_isHex : ∀ c : UInt8, isHex c = true →
    isalnum c = true ∧ fromHex c = .ok (UInt8.ofNat (hexValue c)) :=
  forall_byte (by decide +kernel)

theorem escape_cases (x y : UInt8) :
    (∃ b, escape x y = .ok b) ∧ Readable (.escape x y) ∨
      escape x y = .error .assertion ∧ ¬ Readable (.escape x y) := by
  obtain ⟨⟨high, hx⟩, hx'⟩ | ⟨hx, hx'⟩ := fromHex_cases x
  · obtain ⟨⟨low, hy⟩, hy'⟩ | ⟨hy, hy'⟩ := fromHex_cases y
    · exact .inl ⟨⟨high * 16 + low, by simp [escape, hx, hy]⟩, hx', hy'⟩
    · exact .inr ⟨by simp [escape, hx, hy], by simp [Readable, hy']⟩
  · exact .inr ⟨by simp [escape, hx], by simp [Readable, hx']⟩

theorem escape_of_wellFormed {x y : UInt8} (h : (Token.escape x y).WellFormed) :
    escape x y = .ok (Token.escape x y).byte := by
  rw [escape, (fromHex_of_isHex x h.1).2, (fromHex_of_isHex y h.2).2]
  have h16 : (16 : UInt8) = UInt8.ofNat 16 := rfl
  simp only [Token.byte, h16, UInt8.ofNat_add, UInt8.ofNat_mul]

theorem readable_of_wellFormed {t : Token} (h : t.WellFormed) : Readable t := by
  cases t with
  | escape x y => exact ⟨(fromHex_of_isHex x h.1).1, (fromHex_of_isHex y h.2).1⟩
  | broken _ => exact h
  | plain _ => trivial

/-- One round on a byte that starts no escape. -/
theorem urlDecode_plain {c : UInt8} (hc : c ≠ 37) (rest : List UInt8) :
    urlDecode (c :: rest) = (urlDecode rest).map ((Token.plain c).byte :: ·) := by
  rw [urlDecode.eq_def]
  by_cases hplus : c = 43
  · simp [Token.byte, hplus]
  · simp [Token.byte, hplus, hc]

/-- **`UrlDecode` stops at the escapes that are not letters and digits.** -/
theorem urlDecode_ok_iff (s : List UInt8) :
    (∃ r, urlDecode s = .ok r) ↔ ∀ t ∈ tokens s, Readable t := by
  have hmap : ∀ (b : UInt8) (x : Except Fault (List UInt8)),
      (∃ r, x.map (b :: ·) = .ok r) ↔ ∃ r, x = .ok r := by
    intro b x
    cases x <;> simp [Except.map]
  fun_induction tokens s with
  | case1 => exact iff_of_true ⟨[], rfl⟩ (by simp)
  | case2 x y rest ih =>
    have hrest : (∃ r, urlDecode rest = .ok r) ↔ ∀ t ∈ tokens rest, Readable t := ih
    rw [List.forall_mem_cons, ← hrest, urlDecode, if_neg (by decide), if_pos rfl]
    obtain ⟨⟨b, hb⟩, hread⟩ | ⟨herr, hread⟩ := escape_cases x y
    · simp only [hb, hmap, hread, true_and]
    · simp [herr, hread]
  | case3 rest hshort =>
    refine iff_of_false ?_ fun h => h _ List.mem_cons_self
    rintro ⟨r, hr⟩
    rw [urlDecode.eq_def] at hr
    simp only [if_pos, if_neg (by decide : ¬ (37 : UInt8) = 43)] at hr
    cases hr
  | case4 c rest hc ih =>
    have hrest : (∃ r, urlDecode rest = .ok r) ↔ ∀ t ∈ tokens rest, Readable t := ih
    rw [urlDecode_plain hc, hmap, hrest, List.forall_mem_cons]
    exact (and_iff_right trivial).symm

/-- What comes out of a string whose escapes have two digits each. -/
theorem urlDecode_of_wellFormed {s : List UInt8} (h : ∀ t ∈ tokens s, t.WellFormed) :
    urlDecode s = .ok ((tokens s).map Token.byte) := by
  fun_induction tokens s with
  | case1 => rfl
  | case2 x y rest ih =>
    obtain ⟨hxy, hrest⟩ := List.forall_mem_cons.mp h
    rw [urlDecode, if_neg (by decide), if_pos rfl, escape_of_wellFormed hxy]
    simp only [ih hrest]
    rfl
  | case3 rest _ => exact (h _ List.mem_cons_self).elim
  | case4 c rest hc ih =>
    rw [urlDecode_plain hc, ih (List.forall_mem_cons.mp h).2]
    rfl

/-- `decode` accepts the strings whose escapes have two digits each, and gives what they mean. -/
def AcceptsExactly (decode : List UInt8 → Except Fault (List UInt8)) (s : List UInt8) : Prop :=
  ((∃ r, decode s = .ok r) ↔ ∀ t ∈ tokens s, t.WellFormed) ∧
    ((∀ t ∈ tokens s, t.WellFormed) → decode s = .ok ((tokens s).map Token.byte))

/-- **On which strings `UrlDecode` is right**, in both copies: those without an escape of two
letters or digits that are not both hexadecimal, and those on which it stops because of another
escape. -/
theorem accepts_exactly_iff (s : List UInt8) :
    (AcceptsExactly urlDecode s ↔
      (∀ t ∈ tokens s, t.WellFormed) ∨ ∃ t ∈ tokens s, ¬ Readable t) ∧
    (AcceptsExactly WebSocket.UrldecodeUrlencode.urlDecode s ↔
      (∀ t ∈ tokens s, t.WellFormed) ∨ ∃ t ∈ tokens s, ¬ Readable t) := by
  have h : AcceptsExactly urlDecode s ↔
      (∀ t ∈ tokens s, t.WellFormed) ∨ ∃ t ∈ tokens s, ¬ Readable t := by
    constructor
    · rintro ⟨hiff, -⟩
      by_contra hnone
      rw [not_or] at hnone
      refine hnone.1 (hiff.mp ((urlDecode_ok_iff s).mpr fun t ht => ?_))
      by_contra hread
      exact hnone.2 ⟨t, ht, hread⟩
    · rintro (hwell | ⟨t, ht, hread⟩)
      · have hok := urlDecode_of_wellFormed hwell
        exact ⟨iff_of_true ⟨_, hok⟩ hwell, fun _ => hok⟩
      · have hbad : ¬ ∀ t ∈ tokens s, t.WellFormed := fun hwell =>
          hread (readable_of_wellFormed (hwell t ht))
        refine ⟨iff_of_false (fun hok => ?_) hbad, fun hwell => absurd hwell hbad⟩
        exact hread ((urlDecode_ok_iff s).mp hok t ht)
  exact ⟨h, h⟩

/-- `%GG` is taken for the byte 16. -/
theorem not_accepts_exactly_letters :
    urlDecode (ascii "%GG") = .ok [16] ∧ ¬ AcceptsExactly urlDecode (ascii "%GG") := by
  have hok : urlDecode (ascii "%GG") = .ok [16] := by decide
  refine ⟨hok, fun h => ?_⟩
  have hwell := h.1.mp ⟨_, hok⟩ (.escape 71 71) (by decide)
  exact absurd hwell.1 (by decide)

end WebServer
end UnixNetwork
