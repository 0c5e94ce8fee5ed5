import Mathlib.Data.List.Basic
import Mathlib.Data.List.OfFn
import Mathlib.Data.List.GetD
import Mathlib.Data.Fintype.Pi
import UnixNetwork.Bytes.Basic

/-!
# WebSocket frames, as RFC 6455 prescribes them

The wire format of section 5.2 of the RFC, in its own terms and with nothing of
any implementation in it: a `Frame`, its bytes (`serialize`), and the parser that
reads one frame off the front of a byte string (`parse`).

The length of the payload is written in the shortest of three forms: seven bits,
or `126` and sixteen bits, or `127` and sixty-four bits, both big-endian.
`parse` insists on the shortest form, as the RFC does, so a frame has one
spelling only.

`parse_serialize` is the round trip: a frame is read back whole, and the parser
stops exactly where the frame ends.  It is what makes "the bytes are one frame"
and "a parser recovers the payload and has nothing left over" the same.
-/

namespace UnixNetwork
namespace Rfc6455

open Bytes

/-- A masking key: four bytes. -/
abbrev MaskKey := Fin 4 → UInt8

/-- The key byte that meets payload byte `i`. -/
def MaskKey.at (key : MaskKey) (i : ℕ) : UInt8 := key ⟨i % 4, Nat.mod_lt _ (by decide)⟩

/-- The masking of section 5.3: each byte against its byte of the key. -/
def applyMask (key : MaskKey) (xs : List UInt8) : List UInt8 :=
  xs.mapIdx fun i x => x ^^^ key.at i

@[simp] theorem length_applyMask (key : MaskKey) (xs : List UInt8) :
    (applyMask key xs).length = xs.length := by simp [applyMask]

theorem getElem_applyMask (key : MaskKey) (xs : List UInt8) (i : ℕ) (h : i < xs.length)
    (h' : i < (applyMask key xs).length) : (applyMask key xs)[i] = xs[i] ^^^ key.at i := by
  simp [applyMask]

theorem getElem?_applyMask (key : MaskKey) (xs : List UInt8) (i : ℕ) :
    (applyMask key xs)[i]? = xs[i]?.map fun x => x ^^^ key.at i := List.getElem?_mapIdx

theorem xor_xor_cancel_right (a b : UInt8) : a ^^^ b ^^^ b = a := by
  rw [UInt8.xor_assoc, UInt8.xor_self, UInt8.xor_zero]

/-- **Masking undoes itself.** -/
@[simp] theorem applyMask_applyMask (key : MaskKey) (xs : List UInt8) :
    applyMask key (applyMask key xs) = xs := by
  apply List.ext_getElem
  · simp
  · intro i h₁ h₂
    rw [getElem_applyMask key (applyMask key xs) i (by simpa using h₂),
      getElem_applyMask key xs i h₂, xor_xor_cancel_right]

/-! ## Frames and their bytes -/

/-- A frame.  The three reserved bits are not here: they are zero on the wire
unless an extension was negotiated. -/
structure Frame where
  /-- Whether this is the last frame of a message. -/
  fin : Bool
  /-- The operation code; `1` is text. -/
  opcode : Fin 16
  /-- The masking key, if the frame is masked. -/
  mask : Option MaskKey
  /-- The unmasked payload. -/
  payload : List UInt8
  deriving DecidableEq

/-- The seven-bit length field. -/
def lengthCode (n : ℕ) : ℕ := if n < 126 then n else if n ≤ 65535 then 126 else 127

/-- The extended length field that follows, in the form `lengthCode` announces. -/
def lengthBytes (n : ℕ) : List UInt8 :=
  if n < 126 then [] else if n ≤ 65535 then beBytes 2 n else beBytes 8 n

/-- The key as it stands on the wire: nothing, or its four bytes. -/
def keyBytes : Option MaskKey → List UInt8
  | none => []
  | some key => List.ofFn key

/-- The payload as it stands on the wire. -/
def maskWith : Option MaskKey → List UInt8 → List UInt8
  | none, xs => xs
  | some key, xs => applyMask key xs

@[simp] theorem length_maskWith (mask : Option MaskKey) (xs : List UInt8) :
    (maskWith mask xs).length = xs.length := by
  cases mask <;> simp [maskWith]

@[simp] theorem maskWith_maskWith (mask : Option MaskKey) (xs : List UInt8) :
    maskWith mask (maskWith mask xs) = xs := by
  cases mask <;> simp [maskWith]

/-- The first byte: the final bit, three zero bits, the operation code. -/
def headByte (f : Frame) : UInt8 := UInt8.ofNat ((if f.fin then 128 else 0) + f.opcode)

/-- The second byte: the mask bit and the seven-bit length. -/
def lengthByte (f : Frame) : UInt8 :=
  UInt8.ofNat ((if f.mask.isSome then 128 else 0) + lengthCode f.payload.length)

/-- The bytes of a frame. -/
def serialize (f : Frame) : List UInt8 :=
  [headByte f, lengthByte f] ++ lengthBytes f.payload.length ++ keyBytes f.mask ++
    maskWith f.mask f.payload

/-- The text frame a client sends: final, masked. -/
def clientText (key : MaskKey) (payload : List UInt8) : Frame := ⟨true, 1, some key, payload⟩

/-- The text frame a server sends: final, unmasked. -/
def serverText (payload : List UInt8) : Frame := ⟨true, 1, none, payload⟩

/-! ## Parsing -/

/-- The payload length, from the seven-bit field and the bytes after it.  A
length that a shorter form could have carried is refused. -/
def parseLength (code : ℕ) (l : List UInt8) : Option (ℕ × List UInt8) :=
  if code < 126 then some (code, l)
  else if code = 126 then
    if 2 ≤ l.length ∧ 126 ≤ beNat (l.take 2) then some (beNat (l.take 2), l.drop 2) else none
  else
    if 8 ≤ l.length ∧ 65535 < beNat (l.take 8) ∧ beNat (l.take 8) < 2 ^ 63 then
      some (beNat (l.take 8), l.drop 8)
    else none

/-- The masking key, if the mask bit is set. -/
def parseKey (masked : Bool) (l : List UInt8) : Option (Option MaskKey × List UInt8) :=
  if masked then
    if 4 ≤ l.length then some (some fun i => l.getD i 0, l.drop 4) else none
  else some (none, l)

/-- Reads one frame off the front: the frame and the bytes after it. -/
def parse : List UInt8 → Option (Frame × List UInt8)
  | b₀ :: b₁ :: l => do
    if b₀.toNat % 128 / 16 ≠ 0 then none
    let (n, l) ← parseLength (b₁.toNat % 128) l
    let (mask, l) ← parseKey (decide (128 ≤ b₁.toNat)) l
    if l.length < n then none
    some (⟨decide (128 ≤ b₀.toNat), ⟨b₀.toNat % 16, Nat.mod_lt _ (by decide)⟩, mask,
      maskWith mask (l.take n)⟩, l.drop n)
  | _ => none

/-! ## The round trip -/

theorem lengthCode_lt (n : ℕ) : lengthCode n < 128 := by
  unfold lengthCode
  split
  · omega
  · split <;> omega

theorem parseLength_lengthBytes {n : ℕ} (hn : n < 2 ^ 63) (l : List UInt8) :
    parseLength (lengthCode n) (lengthBytes n ++ l) = some (n, l) := by
  unfold lengthCode lengthBytes parseLength
  by_cases h1 : n < 126
  · simp [h1]
  · by_cases h2 : n ≤ 65535
    · have hv : beNat (beBytes 2 n) = n := by
        rw [beNat_beBytes, Nat.mod_eq_of_lt (by omega)]
      have ht : (beBytes 2 n ++ l).take 2 = beBytes 2 n := List.take_left' (by simp)
      have hd : (beBytes 2 n ++ l).drop 2 = l := List.drop_left' (by simp)
      simp only [h1, h2, if_true, if_false, ht, hd, hv, List.length_append, length_beBytes]
      rw [if_neg (by omega), if_pos (by omega)]
    · have hv : beNat (beBytes 8 n) = n := by
        rw [beNat_beBytes, Nat.mod_eq_of_lt (by omega)]
      have ht : (beBytes 8 n ++ l).take 8 = beBytes 8 n := List.take_left' (by simp)
      have hd : (beBytes 8 n ++ l).drop 8 = l := List.drop_left' (by simp)
      simp only [h1, h2, if_false, ht, hd, hv, List.length_append, length_beBytes]
      rw [if_neg (by omega), if_neg (by omega), if_pos (by omega)]

theorem parseKey_keyBytes (mask : Option MaskKey) (l : List UInt8) :
    parseKey mask.isSome (keyBytes mask ++ l) = some (mask, l) := by
  cases mask with
  | none => simp [parseKey, keyBytes]
  | some key =>
    have hlen : (List.ofFn key).length = 4 := List.length_ofFn
    have hkey : (fun i : Fin 4 => (List.ofFn key ++ l).getD i 0) = key := by
      funext i
      rw [List.getD_append _ _ _ _ (by rw [hlen]; exact i.isLt),
        List.getD_eq_getElem _ _ (by rw [hlen]; exact i.isLt), List.getElem_ofFn]
    have hd : (List.ofFn key ++ l).drop 4 = l := List.drop_left' hlen
    simp only [parseKey, keyBytes, Option.isSome_some, if_true, hkey, hd, List.length_append, hlen]
    rw [if_pos (by omega)]

theorem toNat_headByte (f : Frame) :
    (headByte f).toNat = (if f.fin then 128 else 0) + (f.opcode : ℕ) := by
  have := f.opcode.isLt
  rw [headByte, UInt8.toNat_ofNat']
  split <;> omega

theorem toNat_lengthByte (f : Frame) :
    (lengthByte f).toNat =
      (if f.mask.isSome then 128 else 0) + lengthCode f.payload.length := by
  have := lengthCode_lt f.payload.length
  rw [lengthByte, UInt8.toNat_ofNat']
  split <;> omega

/-- **A frame is read back whole**, and the parser stops exactly at its end. -/
theorem parse_serialize {f : Frame} (hf : f.payload.length < 2 ^ 63) (l : List UInt8) :
    parse (serialize f ++ l) = some (f, l) := by
  have hop := f.opcode.isLt
  have hcode := lengthCode_lt f.payload.length
  have hrsv : (headByte f).toNat % 128 / 16 = 0 := by
    rw [toNat_headByte]
    split <;> omega
  have hfin : decide (128 ≤ (headByte f).toNat) = f.fin := by
    rw [toNat_headByte]
    cases f.fin <;> simp; omega
  have hopc : (⟨(headByte f).toNat % 16, Nat.mod_lt _ (by decide)⟩ : Fin 16) = f.opcode := by
    apply Fin.ext
    simp only [toNat_headByte]
    split <;> omega
  have hlen : (lengthByte f).toNat % 128 = lengthCode f.payload.length := by
    rw [toNat_lengthByte]
    split <;> omega
  have hmask : decide (128 ≤ (lengthByte f).toNat) = f.mask.isSome := by
    rw [toNat_lengthByte]
    cases f.mask.isSome <;> simp; omega
  have hpay : (maskWith f.mask f.payload ++ l).take f.payload.length =
      maskWith f.mask f.payload := List.take_left' (by simp)
  have hrest : (maskWith f.mask f.payload ++ l).drop f.payload.length = l :=
    List.drop_left' (by simp)
  simp only [serialize, List.append_assoc, List.cons_append, List.nil_append, parse, hrsv, hlen,
    hmask, hfin, hopc, parseLength_lengthBytes hf, parseKey_keyBytes, hpay, hrest, ne_eq,
    not_true_eq_false, if_false, Option.bind_eq_bind, Option.bind_some, maskWith_maskWith]
  rw [if_neg (by simp)]

end Rfc6455
end UnixNetwork
