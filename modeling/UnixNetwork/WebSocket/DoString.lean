import Mathlib.Data.List.DropRight
import UnixNetwork.Bytes.Split
import UnixNetwork.Protocol.Rfc4648

/-!
# The string helpers of the C++ server

`trim`, `split` and `base64_encode` of `websocket/do_string.h`.

`split` is the loop of `Bytes.Split`.  The positions the trimming functions work
with, `find_first_not_of` and `find_last_not_of`, are those of the string class,
and `trim_eq` says what comes out: the string without the white space around it.

`base64_encode` collects three bytes at a time in `char_array_3`, and pads what is
left at the end.  `base64Encode_eq` identifies it with RFC 4648; the argument is
that the bytes collected so far and the bytes still to come always encode to what
is still missing from the result.
-/

namespace UnixNetwork
namespace WebSocket

open Bytes

namespace DoString

/-! ## White space -/

/-- `WHITE_SPACE`: the last two are form feed and vertical tab. -/
def whiteSpace : List UInt8 := ascii " \n\r\t\x0c\x0b"

/-- `s.find_first_not_of(WHITE_SPACE)`. -/
def findFirstNotOf (s : List UInt8) : Option ℕ := s.findIdx? fun c => decide (c ∉ whiteSpace)

/-- `s.find_last_not_of(WHITE_SPACE)`. -/
def findLastNotOf (s : List UInt8) : Option ℕ :=
  (findFirstNotOf s.reverse).map fun k => s.length - 1 - k

/-- `ltrim`. -/
def ltrim (s : List UInt8) : List UInt8 :=
  match findFirstNotOf s with
  | none => []
  | some start => s.drop start

/-- `rtrim`. -/
def rtrim (s : List UInt8) : List UInt8 :=
  match findLastNotOf s with
  | none => []
  | some last => s.take (last + 1)

/-- `trim`. -/
def trim (s : List UInt8) : List UInt8 := rtrim (ltrim s)

/-- `split(str, delim, is_trim)`. -/
def split (str delim : List UInt8) (isTrim : Bool) : Option (List (List UInt8)) :=
  Split.splitWith (fun s => if isTrim then trim s else s) str delim

theorem ltrim_eq (s : List UInt8) : ltrim s = s.dropWhile (decide <| · ∈ whiteSpace) := by
  induction s with
  | nil => rfl
  | cons c s ih =>
    by_cases hc : c ∈ whiteSpace
    · rw [List.dropWhile_cons_of_pos (by simpa using hc), ← ih]
      unfold ltrim findFirstNotOf
      rw [List.findIdx?_cons, if_neg (by simpa using hc)]
      cases s.findIdx? fun c => decide (c ∉ whiteSpace) <;> rfl
    · rw [List.dropWhile_cons_of_neg (by simpa using hc)]
      unfold ltrim findFirstNotOf
      rw [List.findIdx?_cons, if_pos (by simpa using hc)]
      rfl

/-- From the other end, the last position is the first of the reversed string. -/
theorem rtrim_eq_reverse (s : List UInt8) : rtrim s = (ltrim s.reverse).reverse := by
  unfold rtrim ltrim findLastNotOf
  cases h : findFirstNotOf s.reverse with
  | none => rfl
  | some k =>
    have hk : k < s.reverse.length := by
      obtain ⟨hk, -⟩ := List.findIdx?_eq_some_iff_getElem.mp h
      exact hk
    rw [List.length_reverse] at hk
    show s.take (s.length - 1 - k + 1) = (s.reverse.drop k).reverse
    rw [List.drop_reverse, List.reverse_reverse]
    congr 1
    omega

/-- **`trim` takes off the white space at both ends.** -/
theorem trim_eq (s : List UInt8) :
    trim s = (s.dropWhile (decide <| · ∈ whiteSpace)).rdropWhile (decide <| · ∈ whiteSpace) := by
  rw [trim, rtrim_eq_reverse, ltrim_eq, ltrim_eq]
  rfl

end DoString

namespace Base64

/-! ## `base64_encode` -/

/-- `base64_chars`. -/
def base64Chars : List UInt8 :=
  ascii "ABCDEFGHIJKLMNOPQRSTUVWXYZabcdefghijklmnopqrstuvwxyz0123456789+/"

/-- `base64_chars[v]`. -/
def base64Char (v : UInt8) : UInt8 := base64Chars.getD v.toNat 0

/-- `char_array_4` from `char_array_3`. -/
def charArray4 (a b c : UInt8) : List UInt8 :=
  [(a &&& 0xfc) >>> 2,
    ((a &&& 0x03) <<< 4) + ((b &&& 0xf0) >>> 4),
    ((b &&& 0x0f) <<< 2) + ((c &&& 0xc0) >>> 6),
    c &&& 0x3f]

/-- The `while` loop, with the bytes in `char_array_3` so far (there are `i` of
them) and the text written so far. -/
def base64EncodeLoop : List UInt8 → List UInt8 → List UInt8 → List UInt8 × List UInt8
  | [], charArray3, ret => (charArray3, ret)
  | byte :: bytesToEncode, charArray3, ret =>
    let charArray3 := charArray3 ++ [byte]
    if charArray3.length = 3 then
      base64EncodeLoop bytesToEncode []
        (ret ++ (charArray4 (charArray3.getD 0 0) (charArray3.getD 1 0)
          (charArray3.getD 2 0)).map base64Char)
    else base64EncodeLoop bytesToEncode charArray3 ret

/-- `base64_encode(bytes_to_encode, in_len)`.  What is left in `char_array_3` is
filled up with zeros, `i + 1` characters of it are written, and `=` for the
rest. -/
def base64Encode (bytesToEncode : List UInt8) : List UInt8 :=
  let r := base64EncodeLoop bytesToEncode [] []
  let i := r.1.length
  if i ≠ 0 then
    r.2 ++ ((charArray4 (r.1.getD 0 0) (r.1.getD 1 0) (r.1.getD 2 0)).take (i + 1)).map base64Char
      ++ List.replicate (3 - i) 61
  else r.2

/-! ## It is RFC 4648 -/

/-- The masks and shifts of `char_array_4`, as arithmetic on one byte. -/
theorem toNat_shifts : ∀ a : UInt8,
    ((a &&& 0xfc) >>> 2).toNat = a.toNat / 4 ∧ ((a &&& 0x03) <<< 4).toNat = a.toNat % 4 * 16 ∧
      ((a &&& 0xf0) >>> 4).toNat = a.toNat / 16 ∧ ((a &&& 0x0f) <<< 2).toNat = a.toNat % 16 * 4 ∧
      ((a &&& 0xc0) >>> 6).toNat = a.toNat / 64 ∧ (a &&& 0x3f).toNat = a.toNat % 64 :=
  forall_byte (by decide +kernel)

/-- The four indices are the four groups of six bits. -/
theorem map_charArray4 (a b c : UInt8) :
    (charArray4 a b c).map base64Char =
      [Rfc4648.char (Rfc4648.sextet (Rfc4648.group a b c) 3),
        Rfc4648.char (Rfc4648.sextet (Rfc4648.group a b c) 2),
        Rfc4648.char (Rfc4648.sextet (Rfc4648.group a b c) 1),
        Rfc4648.char (Rfc4648.sextet (Rfc4648.group a b c) 0)] := by
  obtain ⟨ha6, ha2, -, -, -, -⟩ := toNat_shifts a
  obtain ⟨-, -, hb4, hb4', -, -⟩ := toNat_shifts b
  obtain ⟨-, -, -, -, hc2, hc6⟩ := toNat_shifts c
  have ha := a.toNat_lt
  have hb := b.toNat_lt
  have hc := c.toNat_lt
  have hchar : ∀ v, base64Char v = Rfc4648.char v.toNat := fun _ => rfl
  have h3 : ((a &&& 0xfc) >>> 2).toNat = Rfc4648.sextet (Rfc4648.group a b c) 3 := by
    simp only [ha6, Rfc4648.sextet, Rfc4648.group]
    omega
  have h2 : (((a &&& 0x03) <<< 4) + ((b &&& 0xf0) >>> 4)).toNat =
      Rfc4648.sextet (Rfc4648.group a b c) 2 := by
    simp only [UInt8.toNat_add, ha2, hb4, Rfc4648.sextet, Rfc4648.group]
    omega
  have h1 : (((b &&& 0x0f) <<< 2) + ((c &&& 0xc0) >>> 6)).toNat =
      Rfc4648.sextet (Rfc4648.group a b c) 1 := by
    simp only [UInt8.toNat_add, hb4', hc2, Rfc4648.sextet, Rfc4648.group]
    omega
  have h0 : (c &&& 0x3f).toNat = Rfc4648.sextet (Rfc4648.group a b c) 0 := by
    simp only [hc6, Rfc4648.sextet, Rfc4648.group]
    omega
  simp only [charArray4, List.map_cons, List.map_nil, hchar, h3, h2, h1, h0]

/-- What the loop leaves in `char_array_3` is less than a group, and together
with the text written it still encodes to the whole. -/
theorem base64EncodeLoop_spec (bytesToEncode charArray3 ret : List UInt8)
    (h : charArray3.length < 3) :
    (base64EncodeLoop bytesToEncode charArray3 ret).1.length < 3 ∧
      (base64EncodeLoop bytesToEncode charArray3 ret).2 ++
          Rfc4648.encode (base64EncodeLoop bytesToEncode charArray3 ret).1 =
        ret ++ Rfc4648.encode (charArray3 ++ bytesToEncode) := by
  induction bytesToEncode generalizing charArray3 ret with
  | nil => exact ⟨h, by rw [List.append_nil]; rfl⟩
  | cons byte bytes ih =>
    rw [base64EncodeLoop]
    by_cases h3 : (charArray3 ++ [byte]).length = 3
    · rw [if_pos h3]
      obtain ⟨hlt, heq⟩ := ih [] (ret ++ (charArray4 ((charArray3 ++ [byte]).getD 0 0)
        ((charArray3 ++ [byte]).getD 1 0) ((charArray3 ++ [byte]).getD 2 0)).map base64Char)
        (by decide)
      refine ⟨hlt, heq.trans ?_⟩
      match charArray3, h3 with
      | [a, b], _ =>
        rw [List.append_assoc, map_charArray4]
        rfl
    · rw [if_neg h3]
      have hlt : (charArray3 ++ [byte]).length < 3 := by
        rw [List.length_append, List.length_singleton] at h3 ⊢
        omega
      have := ih (charArray3 ++ [byte]) ret hlt
      rwa [List.append_assoc, List.singleton_append] at this

/-- **`base64_encode` is the encoding of RFC 4648**, on every byte string. -/
theorem base64Encode_eq (bytesToEncode : List UInt8) :
    base64Encode bytesToEncode = Rfc4648.encode bytesToEncode := by
  obtain ⟨hlt, heq⟩ := base64EncodeLoop_spec bytesToEncode [] [] (by decide)
  rw [List.nil_append, List.nil_append] at heq
  rw [← heq]
  unfold base64Encode
  revert hlt
  generalize base64EncodeLoop bytesToEncode [] [] = r
  obtain ⟨charArray3, ret⟩ := r
  intro hlt
  match charArray3, hlt with
  | [], _ => exact (List.append_nil ret).symm
  | [a], _ =>
    show ret ++ ((charArray4 a 0 0).take 2).map base64Char ++ _ = _
    rw [List.append_assoc, List.map_take, map_charArray4]
    rfl
  | [a, b], _ =>
    show ret ++ ((charArray4 a b 0).take 3).map base64Char ++ _ = _
    rw [List.append_assoc, List.map_take, map_charArray4]
    rfl

end Base64
end WebSocket
end UnixNetwork
