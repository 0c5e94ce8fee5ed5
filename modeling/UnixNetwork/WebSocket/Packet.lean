import Mathlib.Data.List.OfFn
import Mathlib.Data.Fin.VecNotation
import Mathlib.Tactic.FinCases
import UnixNetwork.Bytes.Block
import UnixNetwork.Protocol.Rfc6455

/-!
# The frame codec of the WebSocket servers

`decode_packet`, `encode_packet` and `umask` of `websocket/epoll_websocket.c`.
The same three functions stand, statement for statement, in
`epoll_websocket.cpp` and `epoll_websocket2.cpp`, so one model serves all of
them.

The memory a pointer argument refers to is a `Block`, so every load and store is
checked against the buffer it was declared as; the bit fields of `_nty_ophdr` are
laid out from the low bit up and multi-byte fields are little-endian, as the
compilers of the servers' platform lay them out.

## What the codec does

* `decodePacket_eq`: whatever the frame announces, the length is the low seven
  bits of the second byte and the key is the four bytes after it.  The test for
  an extended length looks at `hdr->mask`, a one-bit field, so the two branches
  for extended lengths are never taken (`mask_and_ne`).
* `encodePacket_eq`: whatever the length, the header is two bytes.  In the two
  branches for long payloads the extended header is written and then written
  over, because the payload is copied to `buffer+2` and not after the header.

Against RFC 6455 this makes both directions right exactly for the payloads of at
most 125 bytes --- up to one coincidence on the decoding side, a payload of 126
zero bytes under the key `00 7e 00 7e`, where the two misread header bytes happen
to agree with the key.
-/

namespace UnixNetwork
namespace WebSocket

open Bytes Rfc6455

/-! ## The packed header -/

/-- `struct _nty_ophdr`, with its bit fields in the order of declaration. -/
structure NtyOphdr where
  opcode : BitVec 4
  rsv3 : BitVec 1
  rsv2 : BitVec 1
  rsv1 : BitVec 1
  fin : BitVec 1
  payloadLength : BitVec 7
  mask : BitVec 1
  deriving DecidableEq

namespace NtyOphdr

/-- The header at two bytes of memory: bit fields fill a byte from its low bit. -/
def ofBytes (b₀ b₁ : UInt8) : NtyOphdr where
  opcode := b₀.toBitVec.extractLsb' 0 4
  rsv3 := b₀.toBitVec.extractLsb' 4 1
  rsv2 := b₀.toBitVec.extractLsb' 5 1
  rsv1 := b₀.toBitVec.extractLsb' 6 1
  fin := b₀.toBitVec.extractLsb' 7 1
  payloadLength := b₁.toBitVec.extractLsb' 0 7
  mask := b₁.toBitVec.extractLsb' 7 1

/-- The two bytes of a header. -/
def toBytes (h : NtyOphdr) : List UInt8 :=
  [UInt8.ofBitVec (h.fin ++ h.rsv1 ++ h.rsv2 ++ h.rsv3 ++ h.opcode),
    UInt8.ofBitVec (h.mask ++ h.payloadLength)]

/-- `nty_ophdr head = {0}; head.fin = 1; head.opcode = 1;` -/
def textHead : NtyOphdr := ⟨1, 0, 0, 0, 1, 0, 0⟩

@[simp] theorem length_toBytes (h : NtyOphdr) : h.toBytes.length = 2 := rfl

theorem payloadLength_ofBytes (b₀ b₁ : UInt8) :
    (ofBytes b₀ b₁).payloadLength.toNat = b₁.toNat % 128 := by
  simp [ofBytes, BitVec.extractLsb'_toNat]

/-- The mask is one bit wide, so `hdr->mask & 0x7F` is neither `126` nor `127`. -/
theorem mask_and_ne (h : NtyOphdr) {k : ℕ} (hk : 2 ≤ k) : h.mask.toNat &&& 0x7F ≠ k := by
  have hle : h.mask.toNat &&& 0x7F ≤ h.mask.toNat := Nat.and_le_left
  have hlt := h.mask.isLt
  omega

theorem toBytes_textHead : textHead.toBytes = [0x81, 0] := by decide

theorem toBytes_textHead_length : ∀ l : BitVec 7,
    ({ textHead with payloadLength := l } : NtyOphdr).toBytes = [0x81, UInt8.ofNat l.toNat] := by
  decide

end NtyOphdr

/-! ## Decoding -/

variable {n : ℕ}

/-- Four bytes of memory as a key. -/
def keyOf (l : List UInt8) : MaskKey := fun i => l.getD i 0

theorem keyOf_ofFn_append (key : MaskKey) (l : List UInt8) : keyOf (List.ofFn key ++ l) = key := by
  funext i
  have hi : (i : ℕ) < (List.ofFn key).length := by rw [List.length_ofFn]; exact i.isLt
  rw [keyOf, List.getD_append _ _ _ _ hi, List.getD_eq_getElem _ _ hi, List.getElem_ofFn]

/-- `umask(data, len, mask)`: the first `len` bytes from `data` on, each against
its byte of the key, in place. -/
def umask (stream : Block UInt8 n) (data : ℕ) (mask : MaskKey) : ℕ → Option (Block UInt8 n)
  | 0 => some stream
  | i + 1 => do
    let stream ← umask stream data mask i
    let x ← stream.toList[data + i]?
    stream.store (data + i) [x ^^^ mask.at i]

/-- What `decode_packet` leaves behind: the memory it unmasked in, the key it
stored in `mask`, the length it stored in `*ret`, and the offset in `stream` of
the pointer it returned. -/
structure Decoded (n : ℕ) where
  stream : Block UInt8 n
  mask : MaskKey
  ret : ℤ
  data : ℕ

/-- The common end of the three branches: `*ret = size; umask(stream+start, size,
mask); return stream + start;` -/
def finishDecode (stream : Block UInt8 n) (mask : MaskKey) (size : ℤ) (start : ℕ) :
    Option (Decoded n) :=
  (umask stream start mask size.toNat).map fun stream => ⟨stream, mask, size, start⟩

/-- `decode_packet(stream, mask, length, ret)`.  The `length` argument is not
looked at. -/
def decodePacket (stream : Block UInt8 n) (_length : ℤ) : Option (Decoded n) := do
  let head ← stream.load 0 2
  let hdr := NtyOphdr.ofBytes (head.getD 0 0) (head.getD 1 0)
  if hdr.mask.toNat &&& 0x7F = 126 then
    let hdr126 ← stream.load 2 6
    finishDecode stream (keyOf (hdr126.drop 2)) (leNat (hdr126.take 2)) 8
  else if hdr.mask.toNat &&& 0x7F = 127 then
    let hdr127 ← stream.load 2 12
    -- an `unsigned long long` assigned to an `int`
    finishDecode stream (keyOf (hdr127.drop 8))
      (Int.bmod (leNat (hdr127.take 8)) (2 ^ 32)) 14
  else
    let data ← stream.load 2 4
    finishDecode stream (keyOf data) hdr.payloadLength.toNat 6

/-- The length field of a frame, as `decode_packet` reads it. -/
def shortLength (l : List UInt8) : ℕ := (l.getD 1 0).toNat % 128

theorem shortLength_lt (l : List UInt8) : shortLength l < 128 := Nat.mod_lt _ (by decide)

/-- **`umask` masks.**  Induction on the number of bytes done: one more byte of
`applyMask` is one more byte written. -/
theorem umask_eq (stream : Block UInt8 n) (data : ℕ) (mask : MaskKey) {len : ℕ}
    (h : data + len ≤ n) :
    ∃ b, umask stream data mask len = some b ∧ b.toList = overwrite stream.toList data
      (applyMask mask ((stream.toList.drop data).take len)) := by
  have hn : stream.toList.length = n := stream.toList_length
  induction len with
  | zero => exact ⟨stream, rfl, by simp [overwrite, applyMask]⟩
  | succ i ih =>
    obtain ⟨b, hb, hlist⟩ := ih (by omega)
    set xs := (stream.toList.drop data).take i with hxs
    have hxlen : xs.length = i := by
      rw [hxs, List.length_take, List.length_drop]
      omega
    have hmlen : (applyMask mask xs).length = i := by rw [length_applyMask, hxlen]
    have hlt : data + i < stream.toList.length := by omega
    have hget : b.toList[data + i]? = some stream.toList[data + i] := by
      rw [hlist, overwrite, hmlen, List.getElem?_append_right (by simp [hmlen])]
      simp only [List.length_append, List.length_take, hmlen, List.getElem?_drop]
      rw [Nat.min_eq_left (by omega), show data + i + (data + i - (data + i)) = data + i by omega]
      exact List.getElem?_eq_getElem _
    have hstep : (stream.toList.drop data).take (i + 1) =
        xs ++ [stream.toList[data + i]] := by
      rw [List.take_add_one, hxs]
      congr 1
      rw [List.getElem?_drop, List.getElem?_eq_getElem (by omega)]
      rfl
    obtain ⟨b', hb', hlist'⟩ := Block.store_eq_some b (data + i)
      [stream.toList[data + i] ^^^ mask.at i] (by simp; omega)
    refine ⟨b', ?_, ?_⟩
    · simp only [umask, hb, hget, Option.bind_eq_bind, Option.bind_some, hb']
    · have hmask : applyMask mask (xs ++ [stream.toList[data + i]]) =
          applyMask mask xs ++ [stream.toList[data + i] ^^^ mask.at i] := by
        simp [applyMask, List.mapIdx_append, hxlen]
      have hpre : (stream.toList.take data ++ applyMask mask xs).length = data + i := by
        rw [List.length_append, List.length_take, hmlen]
        omega
      rw [hlist', hlist, hstep, hmask]
      simp only [overwrite, List.length_append, hmlen, List.length_singleton]
      rw [List.take_left' hpre, List.drop_append, hpre,
        List.drop_of_length_le (by omega), List.nil_append, List.drop_drop]
      simp only [List.append_assoc]
      congr 4
      omega

/-- **What `decode_packet` does**, to any memory that holds the bytes it
announces: seven bits of length, the four bytes after the second as the key, the
payload unmasked from offset `6` on. -/
theorem decodePacket_eq (stream : Block UInt8 n) (length : ℤ)
    (h : 6 + shortLength stream.toList ≤ n) :
    ∃ b, decodePacket stream length = some ⟨b, keyOf (stream.toList.drop 2),
        shortLength stream.toList, 6⟩ ∧
      b.toList = overwrite stream.toList 6 (applyMask (keyOf (stream.toList.drop 2))
        ((stream.toList.drop 6).take (shortLength stream.toList))) := by
  have hn : stream.toList.length = n := stream.toList_length
  have hkey : keyOf ((stream.toList.drop 2).take 4) = keyOf (stream.toList.drop 2) := by
    funext i
    have hi := i.isLt
    simp only [keyOf, List.getD_eq_getElem?_getD]
    rw [List.getElem?_take_of_lt hi]
  have hsize : (NtyOphdr.ofBytes ((stream.toList.drop 0 |>.take 2).getD 0 0)
      ((stream.toList.drop 0 |>.take 2).getD 1 0)).payloadLength.toNat =
        shortLength stream.toList := by
    rw [NtyOphdr.payloadLength_ofBytes, shortLength]
    simp only [List.drop_zero, List.getD_eq_getElem?_getD]
    rw [List.getElem?_take_of_lt (by omega)]
  obtain ⟨b, hb, hlist⟩ := umask_eq stream 6 (keyOf (stream.toList.drop 2)) h
  refine ⟨b, ?_, hlist⟩
  simp only [decodePacket, Block.load_eq_some (show 0 + 2 ≤ n by omega), Option.bind_eq_bind,
    Option.bind_some, NtyOphdr.mask_and_ne _ (show 2 ≤ 126 by omega),
    NtyOphdr.mask_and_ne _ (show 2 ≤ 127 by omega), if_false,
    Block.load_eq_some (show 2 + 4 ≤ n by omega), hkey, hsize, finishDecode, Int.toNat_natCast,
    hb, Option.map_some]

/-- A run of `umask` that went through stayed inside the memory. -/
theorem le_of_umask_eq_some {stream b : Block UInt8 n} {data : ℕ} {mask : MaskKey} {len : ℕ}
    (hdata : data ≤ n) (h : umask stream data mask len = some b) : data + len ≤ n := by
  cases len with
  | zero => exact hdata
  | succ i =>
    simp only [umask, Option.bind_eq_bind, Option.bind_eq_some_iff] at h
    obtain ⟨b', -, x, -, hstore⟩ := h
    have := (Block.of_store_eq_some hstore).1
    rw [List.length_singleton] at this
    omega

/-- A run of `decode_packet` that went through found all the bytes it announces. -/
theorem le_of_decodePacket_eq_some {stream : Block UInt8 n} {length : ℤ} {r : Decoded n}
    (h : decodePacket stream length = some r) : 6 + shortLength stream.toList ≤ n := by
  have hload : ∀ {i k : ℕ} {l : List UInt8}, stream.load i k = some l →
      i + k ≤ n ∧ l = (stream.toList.drop i).take k := by
    intro i k l hl
    rw [Block.load, Option.ite_none_right_eq_some] at hl
    exact ⟨hl.1, (Option.some.inj hl.2).symm⟩
  simp only [decodePacket, NtyOphdr.mask_and_ne _ (show 2 ≤ 126 by omega),
    NtyOphdr.mask_and_ne _ (show 2 ≤ 127 by omega), if_false, Option.bind_eq_bind,
    Option.bind_eq_some_iff, finishDecode, Option.map_eq_some_iff, Int.toNat_natCast] at h
  obtain ⟨head, hhead, data, hdata, b, hb, -⟩ := h
  obtain ⟨-, rfl⟩ := hload hhead
  have hle := le_of_umask_eq_some (hload hdata).1 hb
  rw [NtyOphdr.payloadLength_ofBytes] at hle
  simp only [List.drop_zero, List.getD_eq_getElem?_getD] at hle
  rwa [List.getElem?_take_of_lt (by omega), ← List.getD_eq_getElem?_getD] at hle

/-! ## Decoding what a client sends -/

/-- `decode_packet` got the message: the length, the key, and at the returned
pointer the payload. -/
def Decoded.Yields (r : Decoded n) (key : MaskKey) (payload : List UInt8) : Prop :=
  r.ret = payload.length ∧ r.mask = key ∧
    (r.stream.toList.drop r.data).take payload.length = payload

/-- The one key under which a payload that needs the 16-bit length form can be
decoded: the key bytes the code reads are then the key. -/
def coincidentKey : MaskKey := ![0, 0x7e, 0, 0x7e]

/-- A successful decode, said of the bytes in memory alone: this is what `decode_packet`
comes down to once it has been run. -/
theorem exists_yields_iff {stream : Block UInt8 n} (length : ℤ) {key : MaskKey}
    {payload : List UInt8} (h : 6 + shortLength stream.toList ≤ n) :
    (∃ r, decodePacket stream length = some r ∧ r.Yields key payload) ↔
      shortLength stream.toList = payload.length ∧ keyOf (stream.toList.drop 2) = key ∧
        applyMask key ((stream.toList.drop 6).take payload.length) = payload := by
  have hn : stream.toList.length = n := stream.toList_length
  obtain ⟨b, hb, hlist⟩ := decodePacket_eq stream length h
  have hread : ∀ k, shortLength stream.toList = k →
      (b.toList.drop 6).take k =
        applyMask (keyOf (stream.toList.drop 2)) ((stream.toList.drop 6).take k) := by
    intro k hk
    have hlen : (applyMask (keyOf (stream.toList.drop 2))
        ((stream.toList.drop 6).take (shortLength stream.toList))).length = k := by
      simp only [length_applyMask, List.length_take, List.length_drop]
      omega
    have hover := take_drop_overwrite stream.toList 6 (applyMask (keyOf (stream.toList.drop 2))
      ((stream.toList.drop 6).take (shortLength stream.toList))) (by omega)
    rw [← hlist, hlen] at hover
    rw [hover, hk]
  constructor
  · rintro ⟨r, hr, hret, hmask, hdata⟩
    rw [hb, Option.some.injEq] at hr
    subst hr
    have hk : shortLength stream.toList = payload.length := Int.natCast_inj.mp hret
    have hmask' : keyOf (stream.toList.drop 2) = key := hmask
    refine ⟨hk, hmask', ?_⟩
    rw [← hmask', ← hread _ hk]
    exact hdata
  · rintro ⟨hk, hmask, hdata⟩
    refine ⟨_, hb, congrArg Nat.cast hk, hmask, ?_⟩
    show (b.toList.drop 6).take payload.length = payload
    rw [hread _ hk, hmask, hdata]

/-- The bytes of a masked text frame, with its header spelled out. -/
theorem serialize_clientText (key : MaskKey) (payload : List UInt8) :
    serialize (clientText key payload) = 0x81 :: UInt8.ofNat (128 + lengthCode payload.length) ::
      (lengthBytes payload.length ++ (List.ofFn key ++ applyMask key payload)) := by
  simp [serialize, clientText, headByte, lengthByte, keyBytes, maskWith]

/-- The length `decode_packet` reads off a client's frame is the seven-bit
field, also where that field only announces a longer one. -/
theorem shortLength_clientText (key : MaskKey) (payload rest : List UInt8) :
    shortLength (serialize (clientText key payload) ++ rest) = lengthCode payload.length := by
  have := lengthCode_lt payload.length
  rw [serialize_clientText, shortLength, List.cons_append, List.cons_append,
    List.getD_cons_succ, List.getD_cons_zero, UInt8.toNat_ofNat']
  omega

/-- A client's frame is long enough for the length `decode_packet` reads off it. -/
theorem lengthCode_le_length (key : MaskKey) (payload : List UInt8) :
    6 + lengthCode payload.length ≤ (serialize (clientText key payload)).length := by
  rw [serialize_clientText]
  simp only [List.length_cons, List.length_append, List.length_ofFn, length_applyMask, lengthCode]
  split
  · omega
  · split <;> omega

/-- Between two readings of the payload that are two places apart, the key
cancels: a payload that is its own shift by two under a key of period two is
constant on the even and on the odd places. -/
theorem payload_eq_zero_of_shift {key : MaskKey} {payload : List UInt8}
    (hper : ∀ i, key.at (i + 2) = key.at i)
    (h : applyMask key ((key 2 :: key 3 :: applyMask key payload).take payload.length) = payload) :
    payload = List.replicate payload.length 0 := by
  have hlong : ∀ i, i < payload.length → i < (key 2 :: key 3 :: applyMask key payload).length := by
    intro i hi
    simp only [List.length_cons, length_applyMask]
    omega
  have hget : ∀ i (hi : i < payload.length)
      (hi' : i < (key 2 :: key 3 :: applyMask key payload).length), payload[i] =
        (key 2 :: key 3 :: applyMask key payload)[i] ^^^ key.at i := by
    intro i hi hi'
    have hg := congrArg (fun l => l[i]?) h
    simp only [getElem?_applyMask] at hg
    rw [List.getElem?_take_of_lt hi, List.getElem?_eq_getElem hi', List.getElem?_eq_getElem hi] at hg
    exact (Option.some.inj hg).symm
  have hzero : ∀ i (hi : i < payload.length), payload[i] = 0 := by
    intro i
    induction i using Nat.strong_induction_on with
    | _ i ih =>
      intro hi
      rw [hget i hi (hlong i hi)]
      match i, hi with
      | 0, hi => exact (hper 0).symm ▸ UInt8.xor_self
      | 1, hi => exact (hper 1).symm ▸ UInt8.xor_self
      | i + 2, hi =>
        have hprev := ih i (by omega) (by omega)
        have hi' : i < payload.length := by omega
        simp only [List.getElem_cons_succ, getElem_applyMask key payload i hi', hprev, hper,
          xor_xor_cancel_right]
  apply List.ext_getElem
  · simp
  · intro i h₁ h₂
    rw [hzero i h₁, List.getElem_replicate]

theorem at_two_coincidentKey (i : ℕ) : coincidentKey.at (i + 2) = coincidentKey.at i := by
  have h : ∀ j : Fin 4, coincidentKey ⟨(j + 2) % 4, Nat.mod_lt _ (by decide)⟩ = coincidentKey j := by
    decide
  have hj := h ⟨i % 4, Nat.mod_lt _ (by decide)⟩
  simp only [MaskKey.at]
  rw [← hj]
  congr 2
  simp

/-- Reading a 126-byte payload's key two bytes too early finds the key only if
the key is `00 7e 00 7e`. -/
theorem keyOf_misread_iff (key : MaskKey) (l : List UInt8) :
    keyOf (0 :: 0x7e :: (List.ofFn key ++ l)) = key ↔ key = coincidentKey := by
  have hcons : List.ofFn key = [key 0, key 1, key 2, key 3] := by simp [List.ofFn_succ]
  have hkey : keyOf (0 :: 0x7e :: (List.ofFn key ++ l)) = ![0, 0x7e, key 0, key 1] := by
    rw [hcons]
    funext i
    fin_cases i <;> rfl
  rw [hkey]
  constructor
  · intro h
    have h0 : 0 = key 0 := congrFun h 0
    have h1 : 0x7e = key 1 := congrFun h 1
    rw [← h, ← h0, ← h1]
    rfl
  · rintro rfl
    decide

/-- A payload of 126 bytes, read two bytes too early: the length bytes and the first half of
the key are taken for the key, and the second half for payload. -/
theorem misread_iff (key : MaskKey) {payload : List UInt8} (rest : List UInt8)
    (h126 : payload.length = 126) :
    (keyOf (0 :: 0x7e :: (List.ofFn key ++ (applyMask key payload ++ rest))) = key ∧
        applyMask key ((List.drop 2 (List.ofFn key ++ (applyMask key payload ++ rest))).take 126) =
          payload) ↔ key = coincidentKey ∧ payload = List.replicate 126 0 := by
  have hofFn : List.ofFn key = [key 0, key 1, key 2, key 3] := by simp [List.ofFn_succ]
  have htake : (List.drop 2 (List.ofFn key ++ (applyMask key payload ++ rest))).take 126 =
      (key 2 :: key 3 :: applyMask key payload).take payload.length := by
    rw [hofFn, h126]
    simp only [List.cons_append, List.nil_append, List.drop_succ_cons, List.drop_zero]
    rw [← List.cons_append, ← List.cons_append, List.take_append_of_le_length]
    simp [h126]
  rw [keyOf_misread_iff, htake]
  refine and_congr_right fun hkey => ?_
  constructor
  · intro h
    rw [← h126]
    exact payload_eq_zero_of_shift (hkey ▸ at_two_coincidentKey) h
  · rintro rfl
    rw [hkey]
    decide +kernel

/-- **When a client's text frame is decoded.**  Exactly when the payload is
short enough for the seven-bit length form, or is the one payload of the next
form that survives being misread. -/
theorem decodePacket_clientText_iff {stream : Block UInt8 n} (length : ℤ) (key : MaskKey)
    (payload rest : List UInt8)
    (hstream : stream.toList = serialize (clientText key payload) ++ rest) :
    (∃ r, decodePacket stream length = some r ∧ r.Yields key payload) ↔
      payload.length < 126 ∨ (key = coincidentKey ∧ payload = List.replicate 126 0) := by
  have hshort := shortLength_clientText key payload rest
  have hbound : 6 + shortLength stream.toList ≤ n := by
    have hlen := congrArg List.length hstream
    have hfit := lengthCode_le_length key payload
    rw [stream.toList_length, List.length_append] at hlen
    rw [hstream, hshort]
    omega
  have hser := serialize_clientText key payload
  have hkeylen : (List.ofFn key).length = 4 := List.length_ofFn
  by_cases h1 : payload.length < 126
  · -- the seven-bit form: the code reads the frame as it is
    have hlb : lengthBytes payload.length = [] := if_pos h1
    have hlc : lengthCode payload.length = payload.length := if_pos h1
    rw [hlb, List.nil_append] at hser
    rw [hlc] at hshort
    rw [hser] at hstream hshort
    rw [exists_yields_iff length hbound, hstream, hshort]
    refine iff_of_true ⟨rfl, ?_, ?_⟩ (Or.inl h1)
    · simp only [List.cons_append, List.drop_succ_cons, List.drop_zero, List.append_assoc]
      exact keyOf_ofFn_append key _
    · simp only [List.cons_append, List.drop_succ_cons, List.append_assoc]
      rw [List.drop_left' hkeylen, List.take_left' (length_applyMask _ _), applyMask_applyMask]
  · by_cases h2 : payload.length ≤ 65535
    · -- the 16-bit form: the length bytes are taken for the first half of the key
      have hlb : lengthBytes payload.length = beBytes 2 payload.length := by
        rw [lengthBytes, if_neg h1, if_pos h2]
      have hlc : lengthCode payload.length = 126 := by rw [lengthCode, if_neg h1, if_pos h2]
      rw [hlb] at hser
      rw [hlc] at hshort
      rw [exists_yields_iff length hbound, hstream, hshort, hser]
      by_cases h126 : payload.length = 126
      · have hbe : beBytes 2 126 = [0, 0x7e] := by decide
        rw [h126, hbe]
        simp only [List.cons_append, List.nil_append, List.drop_succ_cons, List.drop_zero,
          List.append_assoc, true_and, Nat.lt_irrefl, false_or]
        exact misread_iff key rest h126
      · refine iff_of_false (fun h => h126 h.1.symm) ?_
        rintro (h | ⟨-, h⟩)
        · exact h1 h
        · exact h126 (by rw [h, List.length_replicate])
    · -- the 64-bit form: the length read is `127`
      have hlb : lengthBytes payload.length = beBytes 8 payload.length := by
        rw [lengthBytes, if_neg h1, if_neg h2]
      have hlc : lengthCode payload.length = 127 := by rw [lengthCode, if_neg h1, if_neg h2]
      rw [hlb] at hser
      rw [hlc] at hshort
      rw [exists_yields_iff length hbound, hstream, hshort]
      refine iff_of_false (fun h => by omega) ?_
      rintro (h | ⟨-, h⟩)
      · exact h1 h
      · exact h2 (by rw [h, List.length_replicate]; omega)

/-- The five-byte message that section 5.7 of the RFC uses as its example. -/
theorem decodePacket_hello :
    ∃ r, decodePacket (Block.ofList [0x81, 0x85, 0x37, 0xfa, 0x21, 0x3d, 0x7f, 0x9f, 0x4d, 0x51,
        0x58]) 11 = some r ∧ r.Yields ![0x37, 0xfa, 0x21, 0x3d] (ascii "Hello") :=
  (decodePacket_clientText_iff 11 ![0x37, 0xfa, 0x21, 0x3d] (ascii "Hello") [] (by decide)).mpr
    (Or.inl (by decide))

/-- A 200-byte message is not decoded: the length read is `126`. -/
theorem not_decodePacket_two_hundred :
    ¬ ∃ r, decodePacket (Block.ofList (serialize (clientText ![0x37, 0xfa, 0x21, 0x3d]
        (List.replicate 200 0x61)))) 208 = some r ∧
      r.Yields ![0x37, 0xfa, 0x21, 0x3d] (List.replicate 200 0x61) := by
  intro h
  have hread := ((exists_yields_iff 208 (by decide +kernel)).mp h).1
  revert hread
  decide +kernel

/-! ## Encoding -/

/-- `nty_websocket_head_126 hdr = {0}` with its length and key set: fourteen
bytes, the last eight of them the unused `data` member. -/
def head126 (length : ℤ) (mask : MaskKey) : List UInt8 :=
  leBytes 2 length.toNat ++ List.ofFn mask ++ List.replicate 8 0

/-- `nty_websocket_head_127 hdr = {0}` with its length and key set: twenty bytes. -/
def head127 (length : ℤ) (mask : MaskKey) : List UInt8 :=
  leBytes 8 length.toNat ++ List.ofFn mask ++ List.replicate 8 0

@[simp] theorem length_head126 (length : ℤ) (mask : MaskKey) :
    (head126 length mask).length = 14 := by simp [head126]

@[simp] theorem length_head127 (length : ℤ) (mask : MaskKey) :
    (head127 length mask).length = 20 := by simp [head127]

/-- The header part of `encode_packet`: one branch for each form of the length. -/
def encodeHead (buffer : Block UInt8 n) (mask : MaskKey) (length : ℤ) : Option (Block UInt8 n) :=
  if length < 126 then
    buffer.store 0
      ({ NtyOphdr.textHead with payloadLength := BitVec.ofInt 7 length } : NtyOphdr).toBytes
  else if length < 0xffff then do
    let buffer ← buffer.store 0 NtyOphdr.textHead.toBytes
    buffer.store 2 (head126 length mask)
  else do
    let buffer ← buffer.store 0 NtyOphdr.textHead.toBytes
    buffer.store 2 (head127 length mask)

/-- `encode_packet(buffer, mask, stream, length)`: the buffer afterwards and the
returned `length + 2`, an `int`.  The local `size`, which would be the header's
size, is computed there and not used. -/
def encodePacket (buffer : Block UInt8 n) (mask : MaskKey) (stream : List UInt8) (length : ℤ) :
    Option (Block UInt8 n × ℤ) := do
  let buffer ← encodeHead buffer mask length
  -- `memcpy(buffer+2, stream, length)`; a negative `length` is a huge `size_t`
  if length < 0 ∨ stream.length < length then none
  let buffer ← buffer.store 2 (stream.take length.toNat)
  some (buffer, Int.bmod (length + 2) (2 ^ 32))

/-- The second byte `encode_packet` writes: the length, or nothing at all. -/
def encodedLength (k : ℕ) : UInt8 := if k < 126 then UInt8.ofNat k else 0

theorem encodeHead_eq (buffer : Block UInt8 n) (mask : MaskKey) {k : ℕ} (h : k + 2 ≤ n) :
    ∃ b, encodeHead buffer mask k = some b ∧ b.toList.take 2 = [0x81, encodedLength k] := by
  have hn : buffer.toList.length = n := buffer.toList_length
  have hfront : ∀ {b b' : Block UInt8 n} {l : List UInt8}, b.store 2 l = some b' →
      b'.toList.take 2 = b.toList.take 2 := by
    intro b b' l hb
    rw [(Block.of_store_eq_some hb).2]
    exact take_overwrite_of_le le_rfl (by rw [b.toList_length]; omega)
  unfold encodeHead encodedLength
  by_cases h1 : k < 126
  · rw [if_pos (by omega), if_pos h1, NtyOphdr.toBytes_textHead_length]
    obtain ⟨b, hb, hl⟩ := Block.store_eq_some buffer 0
      [0x81, UInt8.ofNat (BitVec.ofInt 7 (k : ℤ)).toNat] (by simp; omega)
    refine ⟨b, hb, ?_⟩
    have hk : (BitVec.ofInt 7 (k : ℤ)).toNat = k := by
      rw [BitVec.ofInt_natCast, BitVec.toNat_ofNat]
      omega
    rw [hl, overwrite_zero, hk]
    simp
  · obtain ⟨b, hb, hl⟩ := Block.store_eq_some buffer 0 NtyOphdr.textHead.toBytes
      (by simp; omega)
    have hb2 : b.toList.take 2 = [0x81, 0] := by
      rw [hl, overwrite_zero, NtyOphdr.toBytes_textHead]
      simp
    rw [if_neg (by omega), if_neg h1]
    -- both extended headers fit, because the payload that follows is longer
    by_cases h2 : (k : ℤ) < 0xffff
    · obtain ⟨b', hb', -⟩ := Block.store_eq_some b 2 (head126 k mask) (by simp; omega)
      exact ⟨b', by simp only [if_pos h2, hb, Option.bind_eq_bind, Option.bind_some, hb'],
        (hfront hb').trans hb2⟩
    · obtain ⟨b', hb', -⟩ := Block.store_eq_some b 2 (head127 k mask) (by simp; omega)
      exact ⟨b', by simp only [if_neg h2, hb, Option.bind_eq_bind, Option.bind_some, hb'],
        (hfront hb').trans hb2⟩

/-- **What `encode_packet` does**, in every branch: a two-byte header, then the
payload right after it. -/
theorem encodePacket_eq (buffer : Block UInt8 n) (mask : MaskKey) (stream : List UInt8) (k : ℕ)
    (hk : k ≤ stream.length) (h : k + 2 ≤ n) :
    ∃ b, encodePacket buffer mask stream k = some (b, Int.bmod (k + 2) (2 ^ 32)) ∧
      b.toList.take (k + 2) = 0x81 :: encodedLength k :: stream.take k := by
  obtain ⟨b, hb, hfront⟩ := encodeHead_eq buffer mask h
  have hlen : (stream.take k).length = k := by rw [List.length_take, Nat.min_eq_left hk]
  obtain ⟨b', hb', hl⟩ := Block.store_eq_some b 2 (stream.take k) (by omega)
  refine ⟨b', ?_, ?_⟩
  · simp only [encodePacket, hb, Option.bind_eq_bind, Option.bind_some, Int.toNat_natCast, hb']
    rw [if_neg (by omega)]
  · have hpre : (b.toList.take 2 ++ stream.take k).length = k + 2 := by
      rw [List.length_append, hfront, hlen]
      simp only [List.length_cons, List.length_nil]
      omega
    rw [hl, overwrite, List.take_left' hpre, hfront]
    rfl

/-! ## Encoding what the server sends -/

/-- `encode_packet` wrote one frame: the bytes up to the returned length are the
server's text frame for the payload, and a parser recovers it with nothing left
over. -/
def EncodesFrame (buffer : Block UInt8 n) (mask : MaskKey) (stream : List UInt8)
    (payload : List UInt8) : Prop :=
  ∃ b r, encodePacket buffer mask stream payload.length = some (b, r) ∧ 0 ≤ r ∧
    b.toList.take r.toNat = serialize (serverText payload) ∧
    parse (b.toList.take r.toNat) = some (serverText payload, [])

/-- The bytes of an unmasked text frame, with its header spelled out. -/
theorem serialize_serverText (payload : List UInt8) :
    serialize (serverText payload) = 0x81 :: UInt8.ofNat (lengthCode payload.length) ::
      (lengthBytes payload.length ++ payload) := by
  simp [serialize, serverText, headByte, lengthByte, keyBytes, maskWith]

/-- A payload short enough for the seven-bit form has the two-byte header. -/
theorem serialize_serverText_short {payload : List UInt8} (h : payload.length < 126) :
    serialize (serverText payload) = 0x81 :: encodedLength payload.length :: payload := by
  rw [serialize_serverText, lengthCode, lengthBytes, encodedLength, if_pos h, if_pos h, if_pos h,
    List.nil_append]

/-- **When the server's frame is one frame.**  Exactly when the payload is short
enough for the seven-bit length form: beyond it the length field stays zero. -/
theorem encodesFrame_iff (buffer : Block UInt8 n) (mask : MaskKey) (payload rest : List UInt8)
    (hfit : payload.length + 2 ≤ n) (hlen : payload.length < 2 ^ 31) :
    EncodesFrame buffer mask (payload ++ rest) payload ↔ payload.length < 126 := by
  obtain ⟨b, hb, htake⟩ := encodePacket_eq buffer mask (payload ++ rest) payload.length (by simp)
    hfit
  rw [List.take_left] at htake
  constructor
  · rintro ⟨b', r, hr, -, hser, -⟩
    by_contra h1
    rw [hb, Option.some.injEq, Prod.mk.injEq] at hr
    obtain ⟨rfl, -⟩ := hr
    -- the second byte in the buffer is `0`, the second byte of the frame is not
    have hsecond : b.toList[1]? = some 0 := by
      have := congrArg (fun l => l[1]?) htake
      simp only [List.getElem?_take_of_lt (show 1 < payload.length + 2 by omega)] at this
      rw [this]
      simp [encodedLength, h1]
    have hframe : (b.toList.take r.toNat)[1]? = some (UInt8.ofNat (lengthCode payload.length)) := by
      rw [hser, serialize_serverText]
      rfl
    rw [List.getElem?_take] at hframe
    split at hframe
    · rw [hsecond, Option.some.injEq] at hframe
      have hcode := congrArg UInt8.toNat hframe
      have hlt := lengthCode_lt payload.length
      rw [UInt8.toNat_ofNat', Nat.mod_eq_of_lt (by omega), lengthCode, if_neg h1] at hcode
      split at hcode <;> simp at hcode
    · cases hframe
  · intro h1
    have hr : Int.bmod ((payload.length : ℤ) + 2) (2 ^ 32) = ((payload.length + 2 : ℕ) : ℤ) := by
      rw [Int.bmod_eq_of_le] <;> omega
    have hbytes : b.toList.take (payload.length + 2) = serialize (serverText payload) := by
      rw [htake, serialize_serverText_short h1]
    have hparse := parse_serialize (f := serverText payload)
      (by show payload.length < 2 ^ 63; omega) []
    rw [List.append_nil] at hparse
    refine ⟨b, _, hb, ?_, ?_, ?_⟩
    · omega
    · rw [hr, Int.toNat_natCast, hbytes]
    · rw [hr, Int.toNat_natCast, hbytes, hparse]

/-- The five-byte message again, on its way back. -/
theorem encodesFrame_hello :
    EncodesFrame (Block.zero 16) ![0x37, 0xfa, 0x21, 0x3d] (ascii "Hello") (ascii "Hello") := by
  have h := (encodesFrame_iff (Block.zero 16) ![0x37, 0xfa, 0x21, 0x3d] (ascii "Hello")
    [] (by decide) (by decide)).mpr (by decide)
  rwa [List.append_nil] at h

/-- A 126-byte message comes out as an empty frame with 126 bytes after it. -/
theorem not_encodesFrame_one_hundred_twenty_six :
    ¬ EncodesFrame (Block.zero 140) ![0x37, 0xfa, 0x21, 0x3d] (List.replicate 126 0x61)
      (List.replicate 126 0x61) := by
  rintro ⟨b, r, hr, -, hser, -⟩
  obtain ⟨b', hb', htake⟩ := encodePacket_eq (Block.zero 140) ![0x37, 0xfa, 0x21, 0x3d]
    (List.replicate 126 0x61) 126 (by simp) (by simp)
  rw [List.length_replicate, hb', Option.some.injEq, Prod.mk.injEq] at hr
  obtain ⟨rfl, rfl⟩ := hr
  have hbytes : serialize (serverText (List.replicate 126 0x61)) =
      0x81 :: encodedLength 126 :: (List.replicate 126 0x61).take 126 := hser.symm.trans htake
  revert hbytes
  decide +kernel

end WebSocket
end UnixNetwork
