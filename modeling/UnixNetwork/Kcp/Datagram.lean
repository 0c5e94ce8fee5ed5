import UnixNetwork.Kcp.Steps

/-!
# Datagrams

A datagram is a sequence of segments, one after the other.  This file reads both
directions of that.

## Reading

`inputLoop_eq` takes the loop of `ikcp_input` apart: the datagram is parsed
(`parseSegs`), whatever the state, and the segments go through `inputSeg` in their
order.  `parseSegs_wires` is the round trip, and `parseSegs_sound` its converse:
whatever is read is what the segments would be sent as, and a parse without an error
leaves less than a header.  Both ends of a session agree on the format
because of the two.

## Writing

Everything that `ikcp_flush` sends goes through `Out.segment`, so it is
`Out.segments` of some list.  `packed_segments` says what comes of it: the segments
in their order, cut into datagrams none of which is longer than the `mtu`, except that
a segment which is too long for one has a datagram of its own.
-/

namespace UnixNetwork
namespace Kcp

open Bytes

/-! ## Reading -/

/-- **The loop parses and then changes the state.** -/
theorem inputLoop_eq (fuel : ℕ) (st : InputState) (data : List UInt8) :
    inputLoop fuel st data =
      (inputSegs st (parseSegs st.kcp.conv fuel data).1, (parseSegs st.kcp.conv fuel data).2) := by
  induction fuel generalizing st data with
  | zero => rfl
  | succ fuel ih =>
    unfold inputLoop parseSegs
    dsimp only
    split
    · rfl
    split
    · rfl
    split
    · rfl
    split
    · rfl
    · rw [ih, conv_inputSeg]
      rfl

/-- **`ikcp_input`**, with the parsing apart. -/
theorem ikcpInput_eq (kcp : Ikcpcb) {data : List UInt8} (hdata : 24 ≤ data.length) :
    ikcpInput kcp data =
      let segs := parseSegs kcp.conv data.length data
      let st := inputSegs { kcp := kcp, flag := false, maxack := 0 } segs.1
      if segs.2 ≠ 0 then (st.kcp, segs.2) else (inputEnd kcp.sndUna st, 0) := by
  unfold ikcpInput
  rw [if_neg (show ¬ data.length < overhead.toNat from not_lt.mpr hdata), inputLoop_eq]

/-- A segment that the other end of a session accepts. -/
structure Acceptable (conv : IUINT32) (seg : Ikcpseg) : Prop where
  conv : seg.conv = conv
  cmd : knownCmd (seg.cmd.setWidth 8)
  len : seg.data.length < 2 ^ 31

/-- Segments one after the other, as they travel. -/
def wires (segs : List Ikcpseg) : List UInt8 := segs.flatMap Ikcpseg.wire

@[simp] theorem wires_nil : wires [] = [] := rfl

@[simp] theorem wires_cons (seg : Ikcpseg) (segs : List Ikcpseg) :
    wires (seg :: segs) = seg.wire ++ wires segs := rfl

@[simp] theorem wires_append (segs segs' : List Ikcpseg) :
    wires (segs ++ segs') = wires segs ++ wires segs' := List.flatMap_append

theorem toNat_len {seg : Ikcpseg} (h : seg.data.length < 2 ^ 31) :
    seg.len.toNat = seg.data.length := by
  rw [Ikcpseg.len, BitVec.toNat_ofNat, Nat.mod_eq_of_lt (by omega)]

theorem toInt_len_nonneg {seg : Ikcpseg} (h : seg.data.length < 2 ^ 31) : 0 ≤ seg.len.toInt := by
  rw [Serial.toInt_nonneg_iff_toNat, toNat_len h]
  omega

/-- **The round trip of a datagram**: the segments are read back, and no error is returned, also
when bytes too few for a header follow. -/
theorem parseSegs_wires {conv : IUINT32} {segs : List Ikcpseg} (rest : List UInt8)
    (h : ∀ seg ∈ segs, Acceptable conv seg) (hrest : rest.length < 24) {fuel : ℕ}
    (hfuel : (wires segs ++ rest).length ≤ fuel) :
    parseSegs conv fuel (wires segs ++ rest) = (segs.map fun seg => (seg.header, seg.data), 0) := by
  induction segs generalizing fuel with
  | nil =>
    cases fuel with
    | zero => rfl
    | succ fuel =>
      unfold parseSegs
      rw [if_pos (show (wires [] ++ rest).length < overhead.toNat from hrest)]
      rfl
  | cons seg segs ih =>
    obtain ⟨hconv, hcmd, hlen⟩ := h seg List.mem_cons_self
    have htoNat := toNat_len hlen
    rw [wires_cons, List.append_assoc, List.length_append, Ikcpseg.length_wire] at hfuel
    obtain ⟨fuel, rfl⟩ : ∃ k, fuel = k + 1 := ⟨fuel - 1, by omega⟩
    have hdecode : decodeHeader (wires (seg :: segs) ++ rest) =
        (seg.header, seg.data ++ (wires segs ++ rest)) := by
      rw [wires_cons, Ikcpseg.wire, List.append_assoc, List.append_assoc, decodeHeader_encode]
    have hlong : ¬ (wires (seg :: segs) ++ rest).length < overhead.toNat := by
      rw [wires_cons, List.append_assoc, List.length_append, Ikcpseg.length_wire, not_lt]
      exact (Nat.le_add_right 24 _).trans (Nat.le_add_right _ _)
    have hfits : ¬ ((seg.data ++ (wires segs ++ rest)).length < seg.header.len.toNat ∨
        seg.header.len.toInt < 0) := by
      rw [not_or, not_lt, not_lt]
      refine ⟨?_, toInt_len_nonneg hlen⟩
      rw [List.length_append]
      exact htoNat.le.trans (Nat.le_add_right _ _)
    unfold parseSegs
    rw [if_neg hlong, hdecode]
    dsimp only
    rw [if_neg (not_not.mpr (show seg.header.conv = conv from hconv)), if_neg hfits,
      if_neg (not_not.mpr (show knownCmd seg.header.cmd from hcmd)),
      show seg.header.len.toNat = seg.data.length from htoNat, List.drop_left, List.take_left,
      ih (fun seg' hseg' => h seg' (List.mem_cons_of_mem seg hseg')) (by omega)]
    rfl

theorem leBytes_leNat (l : List UInt8) : leBytes l.length (leNat l) = l := by
  induction l with
  | nil => rfl
  | cons b l ih =>
    have hb := b.toNat_lt
    rw [leNat, List.foldr_cons, List.length_cons, leBytes]
    refine congr (congrArg List.cons ?_) ?_
    · rw [← UInt8.toNat_inj, UInt8.toNat_ofNat']
      omega
    · have hdiv : (b.toNat + 256 * leNat l) / 256 = leNat l := by omega
      exact (congrArg (leBytes l.length) hdiv).trans ih

/-- A field is what its bytes decode to. -/
theorem leBytes_toNat_ofNat {w k : ℕ} (hw : 256 ^ k = 2 ^ w) {p : List UInt8}
    (hp : k ≤ p.length) : leBytes k (BitVec.ofNat w (leNat (p.take k))).toNat = p.take k := by
  have hlen : (p.take k).length = k := List.length_take_of_le hp
  have hback := leNat_leBytes k (leNat (p.take k))
  have hself := leBytes_leNat (p.take k)
  rw [hlen] at hself
  rw [hself] at hback
  rw [BitVec.toNat_ofNat, ← hw, ← hback, hself]

theorem take_drop_add (p : List UInt8) (o i j : ℕ) :
    (p.drop o).take (i + j) = (p.drop o).take i ++ (p.drop (o + i)).take j := by
  rw [List.take_add, List.drop_drop]

/-- The bytes of a header, field by field. -/
theorem take_header (p : List UInt8) :
    p.take 24 =
      p.take 4 ++ ((p.drop 4).take 1 ++ ((p.drop 5).take 1 ++ ((p.drop 6).take 2 ++
        ((p.drop 8).take 4 ++ ((p.drop 12).take 4 ++ ((p.drop 16).take 4 ++
          (p.drop 20).take 4)))))) :=
  (take_drop_add p 0 4 20).trans <| congrArg _ <|
  (take_drop_add p 4 1 19).trans <| congrArg _ <|
  (take_drop_add p 5 1 18).trans <| congrArg _ <|
  (take_drop_add p 6 2 16).trans <| congrArg _ <|
  (take_drop_add p 8 4 12).trans <| congrArg _ <|
  (take_drop_add p 12 4 8).trans <| congrArg _ <|
  take_drop_add p 16 4 4

/-- The segment that is allocated for a header has that header. -/
theorem header_newSegment {h : Header} {payload : List UInt8}
    (hlen : h.len.toNat = payload.length) : (newSegment h payload).header = h := by
  have hlen' : (newSegment h payload).len = h.len := by
    rw [Ikcpseg.len, newSegment, ← hlen, BitVec.ofNat_toNat, BitVec.setWidth_eq]
  obtain ⟨conv, cmd, frg, wnd, ts, sn, una, len⟩ := h
  simp only [newSegment, Ikcpseg.header] at hlen' ⊢
  rw [hlen']
  simp

/-- **A header is what its bytes decode to.** -/
theorem encode_decodeHeader {data : List UInt8} (h : 24 ≤ data.length) {payload : List UInt8}
    (hlen : (decodeHeader data).1.len.toNat = payload.length) :
    ikcpEncodeSeg (newSegment (decodeHeader data).1 payload) = data.take 24 := by
  have hfields : ∀ seg : Ikcpseg, ikcpEncodeSeg seg =
      encode32u seg.header.conv ++ (encode8u seg.header.cmd ++ (encode8u seg.header.frg ++
        (encode16u seg.header.wnd ++ (encode32u seg.header.ts ++ (encode32u seg.header.sn ++
          (encode32u seg.header.una ++ encode32u seg.header.len)))))) := fun _ => rfl
  have h32 (o : ℕ) (ho : o + 4 ≤ data.length) :
      encode32u (decode32u (data.drop o)).1 = (data.drop o).take 4 :=
    leBytes_toNat_ofNat rfl (by rw [List.length_drop]; omega)
  have h16 (o : ℕ) (ho : o + 2 ≤ data.length) :
      encode16u (decode16u (data.drop o)).1 = (data.drop o).take 2 :=
    leBytes_toNat_ofNat rfl (by rw [List.length_drop]; omega)
  have h8 (o : ℕ) (ho : o + 1 ≤ data.length) :
      encode8u (decode8u (data.drop o)).1 = (data.drop o).take 1 :=
    leBytes_toNat_ofNat rfl (by rw [List.length_drop]; omega)
  rw [hfields, header_newSegment hlen, take_header]
  have h0 := h32 0 (by omega)
  simp only [decodeHeader, decode8u, decode16u, decode32u, List.drop_drop, List.drop_zero] at *
  rw [h0, h8 4 (by omega), h8 5 (by omega), h16 6 (by omega), h32 8 (by omega), h32 12 (by omega),
    h32 16 (by omega), h32 20 (by omega)]

/-- **What is read is what the segments would be sent as**: the accepted segments make up the
datagram so far, and only when less than a header is left is no error returned. -/
theorem parseSegs_sound (conv : IUINT32) (fuel : ℕ) {data : List UInt8}
    (hfuel : data.length ≤ fuel) :
    ∃ segs rest, (parseSegs conv fuel data).1 = segs.map (fun seg => (seg.header, seg.data)) ∧
      (∀ seg ∈ segs, Acceptable conv seg) ∧ data = wires segs ++ rest ∧
      ((parseSegs conv fuel data).2 = 0 ↔ rest.length < 24) := by
  induction fuel generalizing data with
  | zero =>
    refine ⟨[], data, rfl, fun _ h => absurd h List.not_mem_nil, rfl, ?_⟩
    simp only [parseSegs, true_iff]
    omega
  | succ fuel ih =>
    unfold parseSegs
    by_cases hshort : data.length < overhead.toNat
    · rw [if_pos hshort]
      exact ⟨[], data, rfl, fun _ h => absurd h List.not_mem_nil, rfl, iff_of_true rfl hshort⟩
    have hlong : 24 ≤ data.length := not_lt.mp hshort
    have hstop {code : ℤ} (hcode : code ≠ 0) : code = 0 ↔ data.length < 24 :=
      iff_of_false hcode (not_lt.mpr hlong)
    rw [if_neg hshort]
    dsimp only
    split
    · exact ⟨[], data, rfl, fun _ h => absurd h List.not_mem_nil, rfl, hstop (by decide)⟩
    rename_i hconv
    split
    · exact ⟨[], data, rfl, fun _ h => absurd h List.not_mem_nil, rfl, hstop (by decide)⟩
    rename_i hfits
    split
    · exact ⟨[], data, rfl, fun _ h => absurd h List.not_mem_nil, rfl, hstop (by decide)⟩
    rename_i hcmd
    rw [not_or, not_lt, not_lt, decodeHeader_snd] at hfits
    obtain ⟨hroom, hpos⟩ := hfits
    rw [decodeHeader_snd]
    generalize hh : (decodeHeader data).1 = h at hconv hcmd hroom hpos ⊢
    set payload := (data.drop 24).take h.len.toNat with hpayload
    have hplen : h.len.toNat = payload.length := (List.length_take_of_le hroom).symm
    have hhead : (newSegment h payload).header = h := header_newSegment hplen
    obtain ⟨segs, rest, hparse, hok, hdata, hcode⟩ :=
      @ih ((data.drop 24).drop h.len.toNat) (by
        rw [List.length_drop, List.length_drop]
        omega)
    refine ⟨newSegment h payload :: segs, rest, ?_, ?_, ?_, hcode⟩
    · rw [List.map_cons, hhead, hparse]
      rfl
    · intro seg hseg
      rcases List.mem_cons.mp hseg with rfl | hseg
      · refine ⟨not_not.mp hconv, ?_, ?_⟩
        · exact (congrArg (fun h => knownCmd h.cmd) hhead).mpr (not_not.mp hcmd)
        · rw [Serial.toInt_nonneg_iff_toNat] at hpos
          show payload.length < 2 ^ 31
          omega
      · exact hok seg hseg
    · rw [wires_cons, Ikcpseg.wire, List.append_assoc, List.append_assoc, ← hdata]
      subst hh
      rw [encode_decodeHeader hlong hplen]
      show data = data.take 24 ++ (payload ++ _)
      rw [hpayload, List.take_append_drop, List.take_append_drop]

theorem length_wires_ge {segs : List Ikcpseg} (hne : segs ≠ []) : 24 ≤ (wires segs).length := by
  obtain ⟨seg, rest, rfl⟩ := List.exists_cons_of_ne_nil hne
  rw [wires_cons, List.length_append, Ikcpseg.length_wire]
  omega

/-- What is returned, for a datagram that has room for a header. -/
theorem ikcpInput_code (kcp : Ikcpcb) {data : List UInt8} (hdata : 24 ≤ data.length) :
    (ikcpInput kcp data).2 = (parseSegs kcp.conv data.length data).2 := by
  rw [ikcpInput_eq kcp hdata]
  dsimp only
  split
  · rfl
  · rename_i hzero
    exact (not_not.mp hzero).symm

/-- Segments that can be accepted one by one are accepted together. -/
theorem ikcpInput_code_wires (kcp : Ikcpcb) {segs : List Ikcpseg} {rest : List UInt8}
    (hne : segs ≠ []) (hok : ∀ seg ∈ segs, Acceptable kcp.conv seg) (hrest : rest.length < 24) :
    (ikcpInput kcp (wires segs ++ rest)).2 = 0 := by
  have hlong := length_wires_ge hne
  rw [ikcpInput_code kcp (by rw [List.length_append]; omega), parseSegs_wires rest hok hrest le_rfl]

/-- **What `ikcp_input` accepts**: one or more segments of its session, with known commands and
as they are sent, and less than a header behind them. -/
theorem ikcpInput_code_iff (kcp : Ikcpcb) (data : List UInt8) :
    (ikcpInput kcp data).2 = 0 ↔
      ∃ segs rest, segs ≠ [] ∧ (∀ seg ∈ segs, Acceptable kcp.conv seg) ∧
        data = wires segs ++ rest ∧ rest.length < 24 := by
  constructor
  · intro hzero
    have hlong : 24 ≤ data.length := by
      by_contra hshort
      rw [ikcpInput, if_pos (show data.length < overhead.toNat from not_le.mp hshort)] at hzero
      exact absurd hzero (show ¬ (-1 : ℤ) = 0 by decide)
    rw [ikcpInput_code kcp hlong] at hzero
    obtain ⟨segs, rest, -, hok, hdata, hrest⟩ := parseSegs_sound kcp.conv _ (le_refl data.length)
    refine ⟨segs, rest, ?_, hok, hdata, hrest.mp hzero⟩
    rintro rfl
    rw [hdata] at hlong
    exact absurd (hrest.mp hzero) (not_lt.mpr hlong)
  · rintro ⟨segs, rest, hne, hok, rfl, hrest⟩
    exact ikcpInput_code_wires kcp hne hok hrest

/-- **A datagram that is accepted**: its segments go through one after the other. -/
theorem ikcpInput_wires (kcp : Ikcpcb) {segs : List Ikcpseg} (hne : segs ≠ [])
    (hok : ∀ seg ∈ segs, Acceptable kcp.conv seg) :
    (ikcpInput kcp (wires segs)).1 = inputEnd kcp.sndUna
      (inputSegs { kcp := kcp, flag := false, maxack := 0 }
        (segs.map fun seg => (seg.header, seg.data))) := by
  have hparse := parseSegs_wires [] hok (by decide) (le_refl (wires segs ++ []).length)
  rw [List.append_nil] at hparse
  rw [ikcpInput_eq _ (length_wires_ge hne), hparse]
  rfl

/-! ## Writing -/

/-- Segments put into datagrams one after the other. -/
def Out.segments (mtu : IUINT32) (segs : List Ikcpseg) (out : Out) : Out :=
  segs.foldl (fun out seg => out.segment mtu seg) out

@[simp] theorem Out.segments_nil (mtu : IUINT32) (out : Out) : out.segments mtu [] = out := rfl

theorem Out.segments_append (mtu : IUINT32) (segs segs' : List Ikcpseg) (out : Out) :
    out.segments mtu (segs ++ segs') = (out.segments mtu segs).segments mtu segs' :=
  List.foldl_append

/-- Segments that make a datagram: no longer than the `mtu`, or a single one. -/
def Fits (mtu : IUINT32) (segs : List Ikcpseg) : Prop :=
  segs ≠ [] ∧ (((wires segs).length : ℤ) ≤ mtu.toInt ∨ segs.length = 1)

/-- Segments in their order, cut into the datagrams sent so far and the one in the buffer. -/
structure Packed (mtu : IUINT32) (segs : List Ikcpseg) (groups : List (List Ikcpseg))
    (last : List Ikcpseg) (out : Out) : Prop where
  flatten : groups.flatten ++ last = segs
  sent : out.sent = groups.map wires
  buffer : out.buffer = wires last
  fits : ∀ g ∈ groups, Fits mtu g
  last : last ≠ [] → Fits mtu last

theorem wires_eq_nil_iff {segs : List Ikcpseg} : (wires segs).length = 0 ↔ segs = [] := by
  cases segs with
  | nil => simp
  | cons seg segs => simp [Ikcpseg.length_wire]

/-- One more segment: behind the others when it fits, or in a datagram of its own. -/
theorem Packed.segment {mtu : IUINT32} {segs : List Ikcpseg} {groups : List (List Ikcpseg)}
    {last : List Ikcpseg} {out : Out} (h : Packed mtu segs groups last out) (seg : Ikcpseg) :
    ∃ groups' last', Packed mtu (segs ++ [seg]) groups' last' (out.segment mtu seg) := by
  unfold Out.segment Out.room
  by_cases hroom : mtu.toInt < out.buffer.length + (overhead.toNat + seg.data.length : ℕ)
  · rw [if_pos hroom]
    by_cases hempty : last = []
    · subst hempty
      refine ⟨groups, [seg], ?_, ?_, ?_, h.fits, fun _ => ⟨by simp, .inr rfl⟩⟩
      · rw [← h.flatten, List.append_nil]
      · show (if out.buffer.length = 0 then _ else _) = _
        rw [if_pos (by rw [h.buffer]; rfl)]
        exact h.sent
      · exact (List.append_nil _).symm
    · refine ⟨groups ++ [last], [seg], ?_, ?_, ?_, ?_, fun _ => ⟨by simp, .inr rfl⟩⟩
      · rw [List.flatten_append, List.flatten_singleton, h.flatten]
      · show (if out.buffer.length = 0 then _ else _) = _
        rw [if_neg (by rw [h.buffer, wires_eq_nil_iff]; exact hempty), h.sent, h.buffer,
          List.map_append, List.map_singleton]
      · exact (List.append_nil _).symm
      · intro g hg
        rcases List.mem_append.mp hg with hg | hg
        · exact h.fits g hg
        · obtain rfl := List.mem_singleton.mp hg
          exact h.last hempty
  · rw [if_neg hroom]
    refine ⟨groups, last ++ [seg], ?_, h.sent, ?_, h.fits, fun _ => ⟨by simp, .inl ?_⟩⟩
    · rw [← List.append_assoc, h.flatten]
    · simp [h.buffer]
    · rw [wires_append, List.length_append, ← h.buffer, wires_cons, wires_nil, List.append_nil,
        Ikcpseg.length_wire]
      exact not_lt.mp hroom

theorem Packed.segments {mtu : IUINT32} {segs : List Ikcpseg} {groups : List (List Ikcpseg)}
    {last : List Ikcpseg} {out : Out} (h : Packed mtu segs groups last out)
    (segs' : List Ikcpseg) :
    ∃ groups' last', Packed mtu (segs ++ segs') groups' last' (out.segments mtu segs') := by
  induction segs' generalizing segs groups last out with
  | nil => exact ⟨groups, last, by simpa using h⟩
  | cons seg segs' ih =>
    obtain ⟨groups', last', hseg⟩ := h.segment seg
    obtain ⟨groups'', last'', hrest⟩ := ih hseg
    refine ⟨groups'', last'', ?_⟩
    rwa [List.append_assoc] at hrest

/-- **What comes out**: the segments in their order, cut into datagrams that fit. -/
theorem packed_segments (mtu : IUINT32) (segs : List Ikcpseg) :
    ∃ groups : List (List Ikcpseg), groups.flatten = segs ∧ (∀ g ∈ groups, Fits mtu g) ∧
      ((Out.segments mtu segs {}).output).sent = groups.map wires := by
  have hstart : Packed mtu [] [] [] {} :=
    ⟨rfl, rfl, rfl, fun _ h => absurd h List.not_mem_nil, fun h => absurd rfl h⟩
  obtain ⟨groups, last, h⟩ := hstart.segments segs
  rw [List.nil_append] at h
  by_cases hempty : last = []
  · refine ⟨groups, by rw [← h.flatten, hempty, List.append_nil], h.fits, ?_⟩
    rw [Out.output, if_pos (by rw [h.buffer, wires_eq_nil_iff]; exact hempty)]
    exact h.sent
  · refine ⟨groups ++ [last], ?_, ?_, ?_⟩
    · rw [List.flatten_append, List.flatten_singleton, h.flatten]
    · intro g hg
      rcases List.mem_append.mp hg with hg | hg
      · exact h.fits g hg
      · obtain rfl := List.mem_singleton.mp hg
        exact h.last hempty
    · rw [Out.output, if_neg (by rw [h.buffer, wires_eq_nil_iff]; exact hempty), h.sent, h.buffer,
        List.map_append, List.map_singleton]

end Kcp
end UnixNetwork
