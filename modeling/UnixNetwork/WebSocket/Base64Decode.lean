import UnixNetwork.WebSocket.DoString

/-!
# `base64_decode`

The decoder of `websocket/do_string.h`.  It collects four characters at a time in
`char_array_4`, turns them into their six bits with `base64_chars.find`, and shifts these
together in `char_array_3`.  A last group of two or three characters is filled up with NUL
bytes, for which `find` answers `npos`: 255 in an `unsigned char`.  The bytes the filling has a
part in are not written.

`base64Decode_encode` undoes the encoding of RFC 4648, and `base64_codec` puts the two functions
together: on canonical strings, and on these only, decoding can be undone as well.
-/

namespace UnixNetwork
namespace WebSocket

open Bytes

namespace Base64

/-! ## The source -/

/-- `is_base64`. -/
def isBase64 (c : UInt8) : Bool := isalnum c || decide (c = 43) || decide (c = 47)

/-- `base64_chars.find(c)`, kept in an `unsigned char`: `npos` becomes 255. -/
def findChar (c : UInt8) : UInt8 := UInt8.ofNat ((base64Chars.idxOf? c).getD (2 ^ 64 - 1))

/-- `char_array_3` from the six bits of four characters. -/
def charArray3 (a b c d : UInt8) : List UInt8 :=
  [(a <<< 2) + ((b &&& 0x30) >>> 4),
    ((b &&& 0xf) <<< 4) + ((c &&& 0x3c) >>> 2),
    ((c &&& 0x3) <<< 6) + d]

/-- `char_array_4` replaced by the positions of its characters, and `char_array_3` from it. -/
def decodeGroup (charArray4 : List UInt8) : List UInt8 :=
  charArray3 (findChar (charArray4.getD 0 0)) (findChar (charArray4.getD 1 0))
    (findChar (charArray4.getD 2 0)) (findChar (charArray4.getD 3 0))

/-- The `while` loop: the count `in_len`, the string from `in_` on, the characters in
`char_array_4` so far (there are `i` of them) and the bytes written so far.  Behind the string
stands its terminator, which is not of the alphabet. -/
def base64DecodeLoop : ℤ → List UInt8 → List UInt8 → List UInt8 → List UInt8 × List UInt8
  | _, [], charArray4, ret => (charArray4, ret)
  | inLen, c :: encodedString, charArray4, ret =>
    if inLen ≠ 0 ∧ c ≠ 61 ∧ isBase64 c then
      let charArray4 := charArray4 ++ [c]
      if charArray4.length = 4 then
        base64DecodeLoop (inLen - 1) encodedString [] (ret ++ decodeGroup charArray4)
      else base64DecodeLoop (inLen - 1) encodedString charArray4 ret
    else (charArray4, ret)

/-- The bytes written behind the loop for the `i` characters left in `char_array_4`: they are
filled up with zeros, and `i - 1` bytes of the group are kept. -/
def decodeRest (charArray4 : List UInt8) : List UInt8 :=
  let i := charArray4.length
  if i ≠ 0 then (decodeGroup charArray4).take (i - 1) else []

/-- `base64_decode(encoded_string)`. -/
def base64Decode (encodedString : List UInt8) : List UInt8 :=
  let r := base64DecodeLoop (toInt encodedString.length) encodedString [] []
  r.2 ++ decodeRest r.1

/-- `base64_encode(bytes_to_encode, in_len)` with the count as the `unsigned int` it is. -/
def base64EncodeLen (bytesToEncode : List UInt8) (inLen : ℕ) : List UInt8 :=
  base64Encode (bytesToEncode.take (inLen % 2 ^ 32))

/-! ## Characters -/

/-- The characters of the alphabet are letters, digits, `+` and `/`. -/
theorem isBase64_char {v : ℕ} (h : v < 64) : isBase64 (Rfc4648.char v) = true := by
  have hall : ∀ v : Fin 64, isBase64 (Rfc4648.char v) = true := by decide +kernel
  exact hall ⟨v, h⟩

/-- `find` finds the six bits of a character. -/
theorem findChar_char {v : ℕ} (h : v < 64) : findChar (Rfc4648.char v) = UInt8.ofNat v := by
  have hall : ∀ v : Fin 64, findChar (Rfc4648.char v) = UInt8.ofNat v := by decide +kernel
  exact hall ⟨v, h⟩

/-- The masks and shifts of `char_array_3`, as arithmetic on one byte. -/
theorem toNat_decode_shifts : ∀ a : UInt8,
    (a <<< 2).toNat = a.toNat % 64 * 4 ∧ ((a &&& 0x30) >>> 4).toNat = a.toNat / 16 % 4 ∧
      ((a &&& 0xf) <<< 4).toNat = a.toNat % 16 * 16 ∧
      ((a &&& 0x3c) >>> 2).toNat = a.toNat / 4 % 16 ∧
      ((a &&& 0x3) <<< 6).toNat = a.toNat % 4 * 64 :=
  forall_byte (by decide +kernel)

/-- The six bits of four characters are shifted together to the bytes they come from. -/
theorem charArray3_sextets (a b c : UInt8) :
    charArray3 (UInt8.ofNat (Rfc4648.sextet (Rfc4648.group a b c) 3))
        (UInt8.ofNat (Rfc4648.sextet (Rfc4648.group a b c) 2))
        (UInt8.ofNat (Rfc4648.sextet (Rfc4648.group a b c) 1))
        (UInt8.ofNat (Rfc4648.sextet (Rfc4648.group a b c) 0)) =
      [a, b, c] := by
  have ha := a.toNat_lt
  have hb := b.toNat_lt
  have hc := c.toNat_lt
  have hsextet : ∀ k, ∃ d : UInt8, UInt8.ofNat (Rfc4648.sextet (Rfc4648.group a b c) k) = d ∧
      d.toNat = Rfc4648.sextet (Rfc4648.group a b c) k := by
    intro k
    have := Rfc4648.sextet_lt (Rfc4648.group a b c) k
    exact ⟨_, rfl, by rw [UInt8.toNat_ofNat', Nat.mod_eq_of_lt (by omega)]⟩
  obtain ⟨d₃, hd₃, h₃⟩ := hsextet 3
  obtain ⟨d₂, hd₂, h₂⟩ := hsextet 2
  obtain ⟨d₁, hd₁, h₁⟩ := hsextet 1
  obtain ⟨d₀, hd₀, h₀⟩ := hsextet 0
  obtain ⟨h₃s, -, -, -, -⟩ := toNat_decode_shifts d₃
  obtain ⟨-, h₂s, h₂s', -, -⟩ := toNat_decode_shifts d₂
  obtain ⟨-, -, -, h₁s, h₁s'⟩ := toNat_decode_shifts d₁
  simp only [Rfc4648.sextet, Rfc4648.group] at h₃ h₂ h₁ h₀
  have hfirst : (d₃ <<< 2) + ((d₂ &&& 0x30) >>> 4) = a := by
    apply UInt8.toNat_inj.mp
    rw [UInt8.toNat_add, h₃s, h₂s]
    omega
  have hsecond : ((d₂ &&& 0xf) <<< 4) + ((d₁ &&& 0x3c) >>> 2) = b := by
    apply UInt8.toNat_inj.mp
    rw [UInt8.toNat_add, h₂s', h₁s]
    omega
  have hthird : ((d₁ &&& 0x3) <<< 6) + d₀ = c := by
    apply UInt8.toNat_inj.mp
    rw [UInt8.toNat_add, h₁s']
    omega
  rw [hd₃, hd₂, hd₁, hd₀, charArray3, hfirst, hsecond, hthird]

theorem decodeGroup_cons (c₃ c₂ c₁ c₀ : UInt8) :
    decodeGroup [c₃, c₂, c₁, c₀] =
      charArray3 (findChar c₃) (findChar c₂) (findChar c₁) (findChar c₀) := rfl

/-- Of a group that begins with two characters, the first byte is written, whatever fills it up. -/
theorem decodeRest_two (c₃ c₂ c₁ c₀ : UInt8) :
    decodeRest [c₃, c₂] = (decodeGroup [c₃, c₂, c₁, c₀]).take 1 := by
  simp [decodeRest, decodeGroup, charArray3]

theorem decodeRest_three (c₃ c₂ c₁ c₀ : UInt8) :
    decodeRest [c₃, c₂, c₁] = (decodeGroup [c₃, c₂, c₁, c₀]).take 2 := by
  simp [decodeRest, decodeGroup, charArray3]

/-- A group of the encoding is decoded to its bytes. -/
theorem decodeGroup_encoded (a b c : UInt8) :
    decodeGroup ((charArray4 a b c).map base64Char) = [a, b, c] := by
  rw [map_charArray4, decodeGroup_cons, findChar_char (Rfc4648.sextet_lt _ _),
    findChar_char (Rfc4648.sextet_lt _ _), findChar_char (Rfc4648.sextet_lt _ _),
    findChar_char (Rfc4648.sextet_lt _ _), charArray3_sextets]

/-! ## The loop -/

/-- A character of the alphabet is put behind the others. -/
theorem base64DecodeLoop_char {v k : ℕ} (encodedString charArray4 ret : List UInt8) :
    base64DecodeLoop (Rfc4648.char (Rfc4648.sextet v k) :: encodedString).length
        (Rfc4648.char (Rfc4648.sextet v k) :: encodedString) charArray4 ret =
      if (charArray4 ++ [Rfc4648.char (Rfc4648.sextet v k)]).length = 4 then
        base64DecodeLoop encodedString.length encodedString []
          (ret ++ decodeGroup (charArray4 ++ [Rfc4648.char (Rfc4648.sextet v k)]))
      else
        base64DecodeLoop encodedString.length encodedString
          (charArray4 ++ [Rfc4648.char (Rfc4648.sextet v k)]) ret := by
  have hcond : (((Rfc4648.char (Rfc4648.sextet v k) :: encodedString).length : ℤ) ≠ 0) ∧
      Rfc4648.char (Rfc4648.sextet v k) ≠ 61 ∧
      isBase64 (Rfc4648.char (Rfc4648.sextet v k)) = true := by
    refine ⟨?_, Rfc4648.char_ne_pad (Rfc4648.sextet_lt v k), isBase64_char (Rfc4648.sextet_lt v k)⟩
    rw [List.length_cons]
    omega
  have hlen : ((Rfc4648.char (Rfc4648.sextet v k) :: encodedString).length : ℤ) - 1 =
      encodedString.length := by
    rw [List.length_cons]
    omega
  rw [base64DecodeLoop, if_pos hcond, hlen]

/-- The padding ends the loop. -/
theorem base64DecodeLoop_pad (inLen : ℤ) (encodedString charArray4 ret : List UInt8) :
    base64DecodeLoop inLen (Rfc4648.pad :: encodedString) charArray4 ret = (charArray4, ret) := by
  rw [base64DecodeLoop, if_neg]
  rintro ⟨-, hpad, -⟩
  exact hpad rfl

/-- The loop and the block behind it take an encoding apart.  Induction on the groups: before
each of them `char_array_4` is empty, and what is decoded stands in front. -/
theorem base64DecodeLoop_encode (b ret : List UInt8) :
    (base64DecodeLoop (Rfc4648.encode b).length (Rfc4648.encode b) [] ret).2 ++
        decodeRest (base64DecodeLoop (Rfc4648.encode b).length (Rfc4648.encode b) [] ret).1 =
      ret ++ b := by
  induction b using Rfc4648.encode.induct generalizing ret with
  | case1 => rfl
  | case2 a =>
    have hgroup := decodeGroup_encoded a 0 0
    rw [map_charArray4] at hgroup
    have hrest : decodeRest [Rfc4648.char (Rfc4648.sextet (Rfc4648.group a 0 0) 3),
        Rfc4648.char (Rfc4648.sextet (Rfc4648.group a 0 0) 2)] = [a] := by
      rw [decodeRest_two, hgroup, List.take_succ_cons, List.take_zero]
    simp only [Rfc4648.encode]
    rw [base64DecodeLoop_char, if_neg (by simp), base64DecodeLoop_char, if_neg (by simp),
      base64DecodeLoop_pad]
    exact congrArg (ret ++ ·) hrest
  | case3 a b =>
    have hgroup := decodeGroup_encoded a b 0
    rw [map_charArray4] at hgroup
    have hrest : decodeRest [Rfc4648.char (Rfc4648.sextet (Rfc4648.group a b 0) 3),
        Rfc4648.char (Rfc4648.sextet (Rfc4648.group a b 0) 2),
        Rfc4648.char (Rfc4648.sextet (Rfc4648.group a b 0) 1)] = [a, b] := by
      rw [decodeRest_three, hgroup, List.take_succ_cons, List.take_succ_cons, List.take_zero]
    simp only [Rfc4648.encode]
    rw [base64DecodeLoop_char, if_neg (by simp), base64DecodeLoop_char, if_neg (by simp),
      base64DecodeLoop_char, if_neg (by simp), base64DecodeLoop_pad]
    exact congrArg (ret ++ ·) hrest
  | case4 a b c rest ih =>
    have hgroup := decodeGroup_encoded a b c
    rw [map_charArray4] at hgroup
    simp only [Rfc4648.encode]
    rw [base64DecodeLoop_char, if_neg (by simp), base64DecodeLoop_char, if_neg (by simp),
      base64DecodeLoop_char, if_neg (by simp), base64DecodeLoop_char, if_pos (by simp)]
    simp only [List.nil_append, List.cons_append, hgroup]
    rw [ih, List.append_assoc]
    rfl

/-- **`base64_decode` undoes the encoding of RFC 4648.** -/
theorem base64Decode_encode (b : List UInt8) (h : (Rfc4648.encode b).length < 2 ^ 31) :
    base64Decode (Rfc4648.encode b) = b := by
  unfold base64Decode
  rw [toInt_of_lt h]
  exact base64DecodeLoop_encode b []

/-! ## The codec -/

theorem base64EncodeLen_eq {bytesToEncode : List UInt8}
    (h : (Rfc4648.encode bytesToEncode).length < 2 ^ 31) :
    base64EncodeLen bytesToEncode bytesToEncode.length = Rfc4648.encode bytesToEncode := by
  rw [Rfc4648.length_encode] at h
  rw [base64EncodeLen, Nat.mod_eq_of_lt (by omega), List.take_length, base64Encode_eq]

/-- **The codec.**  Byte strings survive encoding and decoding, and a string survives decoding
and encoding if and only if it is canonical. -/
theorem base64_codec :
    (∀ b : List UInt8, (Rfc4648.encode b).length < 2 ^ 31 →
      base64EncodeLen b b.length = Rfc4648.encode b ∧
      (base64EncodeLen b b.length).length = 4 * ((b.length + 2) / 3) ∧
      base64Decode (base64EncodeLen b b.length) = b) ∧
    ∀ s : List UInt8, s.length < 2 ^ 31 →
      (base64EncodeLen (base64Decode s) (base64Decode s).length = s ↔ Rfc4648.Canonical s) := by
  constructor
  · intro b h
    have henc := base64EncodeLen_eq h
    refine ⟨henc, ?_, ?_⟩
    · rw [henc, Rfc4648.length_encode]
    · rw [henc, base64Decode_encode b h]
  · intro s h
    rw [Rfc4648.canonical_iff]
    constructor
    · intro hs
      rw [base64EncodeLen, base64Encode_eq] at hs
      exact ⟨_, hs⟩
    · rintro ⟨b, rfl⟩
      rw [base64Decode_encode b h, base64EncodeLen_eq h]

/-- Two bytes there and back, and a string with a bit too many. -/
theorem base64_codec_sample :
    (base64EncodeLen (ascii "Ma") 2 = Rfc4648.encode (ascii "Ma") ∧
      (base64EncodeLen (ascii "Ma") 2).length = 4 ∧
      base64Decode (base64EncodeLen (ascii "Ma") 2) = ascii "Ma") ∧
    ¬ Rfc4648.Canonical (ascii "TWF=") := by
  have hlen : (ascii "Ma").length = 2 := by decide
  have hmany : 4 * ((2 + 2) / 3) = 4 := by decide
  have hcodec := base64_codec.1 (ascii "Ma") (by decide)
  rw [hlen, hmany] at hcodec
  refine ⟨hcodec, fun h => ?_⟩
  have hs := (base64_codec.2 (ascii "TWF=") (by decide)).mpr h
  revert hs
  decide +kernel

end Base64
end WebSocket
end UnixNetwork
