import UnixNetwork.Bytes.Basic
import UnixNetwork.Arq.Serial

/-!
# KCP segments

`ikcp.c` is a reliable transport on top of datagrams.  What it puts into a datagram is
a sequence of segments, each a header of 24 bytes and the bytes it announces.  This
file has the constants of the protocol, the segment (`IKCPSEG`), its encoding
(`ikcp_encode_seg`) and the decoding that `ikcp_input` does field by field.

`decodeHeader_encode` is the round trip of the header: the fields that the header
has room for come back, the rest is cut to its width.
-/

namespace UnixNetwork
namespace Kcp

open Bytes

abbrev IUINT32 := BitVec 32
abbrev IUINT16 := BitVec 16
abbrev IUINT8 := BitVec 8

def rtoNdl : IUINT32 := 30
def rtoMin : IUINT32 := 100
def rtoDef : IUINT32 := 200
def rtoMax : IUINT32 := 60000
def cmdPush : IUINT32 := 81
def cmdAck : IUINT32 := 82
def cmdWask : IUINT32 := 83
def cmdWins : IUINT32 := 84
def askSend : IUINT32 := 1
def askTell : IUINT32 := 2
def wndSnd : IUINT32 := 32
def wndRcv : IUINT32 := 128
def mtuDef : IUINT32 := 1400
def intervalDef : IUINT32 := 100
def overhead : IUINT32 := 24
def deadlink : IUINT32 := 20
def threshInit : IUINT32 := 2
def threshMin : IUINT32 := 2
def probeInit : IUINT32 := 7000
def probeLimit : IUINT32 := 120000
def fastackLimit : ℤ := 5

def imin (a b : IUINT32) : IUINT32 := if a ≤ b then a else b

def imax (a b : IUINT32) : IUINT32 := if b ≤ a then a else b

def ibound (lower middle upper : IUINT32) : IUINT32 := imin (imax lower middle) upper

/-- `_itimediff`: how far a time or a serial number is ahead of another. -/
def itimediff (later earlier : IUINT32) : ℤ := Serial.diff later earlier

/-- `IKCPSEG`.  The source's `len` is the length of its `data`. -/
structure Ikcpseg where
  conv : IUINT32 := 0
  cmd : IUINT32 := 0
  frg : IUINT32 := 0
  wnd : IUINT32 := 0
  ts : IUINT32 := 0
  sn : IUINT32 := 0
  una : IUINT32 := 0
  resendts : IUINT32 := 0
  rto : IUINT32 := 0
  fastack : IUINT32 := 0
  xmit : IUINT32 := 0
  data : List UInt8 := []
  deriving DecidableEq, Repr

def Ikcpseg.len (seg : Ikcpseg) : IUINT32 := BitVec.ofNat 32 seg.data.length

/-! ## Encoding and decoding -/

def encode8u (c : IUINT8) : List UInt8 := leBytes 1 c.toNat

def encode16u (w : IUINT16) : List UInt8 := leBytes 2 w.toNat

def encode32u (l : IUINT32) : List UInt8 := leBytes 4 l.toNat

def decode8u (p : List UInt8) : IUINT8 × List UInt8 := (BitVec.ofNat 8 (leNat (p.take 1)), p.drop 1)

def decode16u (p : List UInt8) : IUINT16 × List UInt8 :=
  (BitVec.ofNat 16 (leNat (p.take 2)), p.drop 2)

def decode32u (p : List UInt8) : IUINT32 × List UInt8 :=
  (BitVec.ofNat 32 (leNat (p.take 4)), p.drop 4)

theorem ofNat_leNat_append {w k : ℕ} (x : BitVec w) (hw : 256 ^ k = 2 ^ w) (rest : List UInt8) :
    BitVec.ofNat w (leNat ((leBytes k x.toNat ++ rest).take k)) = x := by
  rw [List.take_left' (length_leBytes k _), leNat_leBytes, hw, Nat.mod_eq_of_lt x.isLt,
    BitVec.ofNat_toNat, BitVec.setWidth_eq]

@[simp] theorem decode8u_encode8u (c : IUINT8) (rest : List UInt8) :
    decode8u (encode8u c ++ rest) = (c, rest) :=
  Prod.ext (ofNat_leNat_append (k := 1) c rfl rest) (List.drop_left' (length_leBytes 1 _))

@[simp] theorem decode16u_encode16u (w : IUINT16) (rest : List UInt8) :
    decode16u (encode16u w ++ rest) = (w, rest) :=
  Prod.ext (ofNat_leNat_append (k := 2) w rfl rest) (List.drop_left' (length_leBytes 2 _))

@[simp] theorem decode32u_encode32u (l : IUINT32) (rest : List UInt8) :
    decode32u (encode32u l ++ rest) = (l, rest) :=
  Prod.ext (ofNat_leNat_append (k := 4) l rfl rest) (List.drop_left' (length_leBytes 4 _))

/-- The header of a segment. -/
structure Header where
  conv : IUINT32
  cmd : IUINT8
  frg : IUINT8
  wnd : IUINT16
  ts : IUINT32
  sn : IUINT32
  una : IUINT32
  len : IUINT32
  deriving DecidableEq, Repr

/-- What `ikcp_input` reads off the front of a datagram, field by field. -/
def decodeHeader (data : List UInt8) : Header × List UInt8 :=
  let (conv, data) := decode32u data
  let (cmd, data) := decode8u data
  let (frg, data) := decode8u data
  let (wnd, data) := decode16u data
  let (ts, data) := decode32u data
  let (sn, data) := decode32u data
  let (una, data) := decode32u data
  let (len, data) := decode32u data
  ({ conv, cmd, frg, wnd, ts, sn, una, len }, data)

/-- `ikcp_encode_seg`. -/
def ikcpEncodeSeg (seg : Ikcpseg) : List UInt8 :=
  encode32u seg.conv ++ (encode8u (seg.cmd.setWidth 8) ++ (encode8u (seg.frg.setWidth 8) ++
    (encode16u (seg.wnd.setWidth 16) ++ (encode32u seg.ts ++ (encode32u seg.sn ++
      (encode32u seg.una ++ encode32u seg.len))))))

/-- What the header of a segment says. -/
def Ikcpseg.header (seg : Ikcpseg) : Header where
  conv := seg.conv
  cmd := seg.cmd.setWidth 8
  frg := seg.frg.setWidth 8
  wnd := seg.wnd.setWidth 16
  ts := seg.ts
  sn := seg.sn
  una := seg.una
  len := seg.len

@[simp] theorem length_ikcpEncodeSeg (seg : Ikcpseg) : (ikcpEncodeSeg seg).length = 24 := by
  simp [ikcpEncodeSeg, encode8u, encode16u, encode32u]

/-- **The header is read back.** -/
theorem decodeHeader_encode (seg : Ikcpseg) (rest : List UInt8) :
    decodeHeader (ikcpEncodeSeg seg ++ rest) = (seg.header, rest) := by
  simp [decodeHeader, ikcpEncodeSeg, List.append_assoc, Ikcpseg.header]

/-- The header takes 24 bytes. -/
theorem decodeHeader_snd (data : List UInt8) : (decodeHeader data).2 = data.drop 24 := by
  simp [decodeHeader, decode8u, decode16u, decode32u]

/-- A segment as it travels. -/
def Ikcpseg.wire (seg : Ikcpseg) : List UInt8 := ikcpEncodeSeg seg ++ seg.data

theorem Ikcpseg.length_wire (seg : Ikcpseg) : seg.wire.length = 24 + seg.data.length := by
  rw [wire, List.length_append, length_ikcpEncodeSeg]

end Kcp
end UnixNetwork
