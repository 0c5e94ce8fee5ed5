import UnixNetwork.WebSocket.Handshake

/-!
# What the C++ server makes of what it receives

`recv_cb` of `websocket/epoll_websocket.cpp`, on any bytes at all: what `handshake` makes of a
chunk that is no request, and `data_tranform` of a frame.

`handshake` takes two strings off the end of the vector, one off its front, and the first two
pieces of each line in between, without looking how many there are.  `Headed` are the strings
for which this goes well, and `handshake_clean_iff` says that it does for no others: then the
connection is answered, or stays as it was.

A frame arrives in `recv_buffer` as a C string.  `frame_decoded_iff` says that `decode_packet`
finds the payload there just when no byte of the frame is zero, and `dataTranform_ok_iff` that one
at the very end does no more than put the terminator of the string to use.
-/

namespace UnixNetwork
namespace WebSocket
namespace EpollWebsocketCpp

open Bytes
open Upgrade (crlf colon)

variable {P : CryptoPP}

/-! ## The handshake -/

/-- A header line with a colon has a name and a value. -/
theorem split_of_colon_mem {l : List UInt8} (h : colon ∈ l) :
    ∃ name value rest, DoString.split l [colon] false = some (name :: value :: rest) := by
  obtain ⟨name, t, rfl, hname⟩ := List.eq_append_cons_of_mem h
  obtain ⟨value, rest, hrest⟩ := List.exists_cons_of_ne_nil (List.splitOn_ne_nil colon t)
  refine ⟨name, value, rest, ?_⟩
  rw [DoString.split, Split.splitWith_singleton _ colon (by simp),
    List.splitOn_append_cons_self_of_not_mem hname, hrest]
  simp

/-- Another line has at most a name. -/
theorem split_of_colon_notMem {l : List UInt8} (h : colon ∉ l) :
    DoString.split l [colon] false = some [] ∨ DoString.split l [colon] false = some [l] := by
  by_cases hl : l = []
  · rw [hl]
    exact .inl rfl
  · right
    rw [DoString.split, Split.splitWith_singleton _ colon hl, List.splitOn_eq_singleton h]
    rfl

/-- **The loop over the header lines.** -/
theorem readHeaders_cases (headers : List (List UInt8)) (headerMap : List UInt8 → List UInt8) :
    (∀ l ∈ headers, colon ∈ l) ∧ (∃ headerMap', readHeaders headers headerMap = .ok headerMap') ∨
      ¬ (∀ l ∈ headers, colon ∈ l) ∧ readHeaders headers headerMap = .error .outOfBounds := by
  induction headers generalizing headerMap with
  | nil => exact .inl ⟨by simp, headerMap, rfl⟩
  | cons l headers ih =>
    rw [readHeaders, List.forall_mem_cons]
    by_cases hl : colon ∈ l
    · obtain ⟨name, value, rest, hsplit⟩ := split_of_colon_mem hl
      rw [hsplit, and_iff_right hl]
      exact ih _
    · right
      refine ⟨fun h => hl h.1, ?_⟩
      obtain hsplit | hsplit := split_of_colon_notMem hl <;> rw [hsplit]

/-- A line, headers with a colon in each, and two more pieces. -/
def Headed (text : List UInt8) : Prop :=
  ∃ (path : List UInt8) (headers : List (List UInt8)) (a b : List UInt8),
    (∀ p ∈ path :: (headers ++ [a, b]), ¬ crlf <:+: p) ∧
      List.intercalate crlf (path :: (headers ++ [a, b])) = text ∧ ∀ l ∈ headers, colon ∈ l

/-- The connection is answered, or nothing of it changes but what was received. -/
def AnsweredOrKept (P : CryptoPP) (c c' : Connection) : Prop :=
  (∃ key, key ≠ [] ∧
      c'.si.sendBuffer = switchingProtocols (Rfc4648.encode (P.sha1 (key ++ guid))) ∧
      c'.si.status = .wsDatatransform ∧ c'.si.callback = .sendCb ∧ c'.events = .outEt) ∨
    (c'.si.status = c.si.status ∧ c'.si.callback = c.si.callback ∧ c'.events = c.events ∧
      c'.si.sendBuffer = c.si.sendBuffer)

/-- `handshake` on a vector of at least three strings. -/
theorem handshake_of_pieces (c : Connection) {path a b : List UInt8} {headers : List (List UInt8)}
    (hsplit : DoString.split c.si.recvBuffer crlf false = some (path :: (headers ++ [a, b]))) :
    (∀ l ∈ headers, colon ∈ l) ∧ (∃ c', handshake P c = .ok c' ∧ AnsweredOrKept P c c') ∨
      ¬ (∀ l ∈ headers, colon ∈ l) ∧ handshake P c = .error .outOfBounds := by
  have hlen : (path :: (headers ++ [a, b])).length = headers.length + 1 + 2 := by simp
  have htake : (path :: (headers ++ [a, b])).take (headers.length + 1) = path :: headers := by
    rw [List.take_succ_cons, List.take_left]
  rw [handshake, hsplit]
  simp only
  rw [hlen, if_neg (by omega), Nat.add_sub_cancel, htake]
  simp only
  obtain ⟨hcolon, headerMap, hread⟩ | ⟨hcolon, hread⟩ := readHeaders_cases headers fun _ => []
  · left
    refine ⟨hcolon, ?_⟩
    rw [hread]
    simp only
    by_cases hkey : headerMap secWebSocketKey ≠ []
    · refine ⟨_, if_pos hkey, .inl ⟨headerMap secWebSocketKey, hkey, ?_, rfl, rfl, rfl⟩⟩
      rw [← head_eq, ← Base64.base64Encode_eq]
      rfl
    · exact ⟨c, if_neg hkey, .inr ⟨rfl, rfl, rfl, rfl⟩⟩
  · right
    exact ⟨hcolon, by rw [hread]⟩

theorem headed_nil : ¬ Headed [] := by
  rintro ⟨path, headers, a, b, -, hjoin, -⟩
  obtain ⟨q, qs, hq⟩ := List.exists_cons_of_ne_nil
    (List.append_ne_nil_of_right_ne_nil headers (List.cons_ne_nil a [b]))
  rw [hq, List.intercalate_cons_cons] at hjoin
  exact absurd (List.append_eq_nil_iff.mp (List.append_eq_nil_iff.mp hjoin).1).2 (by decide)

/-- The pieces of a string are the ones `Headed` is about. -/
theorem headed_intercalate {ps : List (List UInt8)} (hfree : ∀ p ∈ ps, ¬ crlf <:+: p)
    (hne : List.intercalate crlf ps ≠ []) :
    Headed (List.intercalate crlf ps) ↔
      ∃ path headers a b, ps = path :: (headers ++ [a, b]) ∧ ∀ l ∈ headers, colon ∈ l := by
  constructor
  · rintro ⟨path, headers, a, b, hfree', hjoin, hcolon⟩
    exact ⟨path, headers, a, b,
      Split.pieces_unique Upgrade.borderless_crlf (by decide) hfree hfree' hjoin.symm hne, hcolon⟩
  · rintro ⟨path, headers, a, b, rfl, hcolon⟩
    exact ⟨path, headers, a, b, hfree, rfl, hcolon⟩

/-- A list is short, or has a first and two last elements. -/
theorem three_pieces {α : Type} (ps : List α) :
    ps.length < 3 ∨ ∃ path headers a b, ps = path :: (headers ++ [a, b]) := by
  by_cases h : ps.length < 3
  · exact .inl h
  · right
    obtain ⟨path, rest, rfl⟩ := List.exists_cons_of_length_pos (by omega : 0 < ps.length)
    rw [List.length_cons] at h
    obtain rfl | ⟨rest, b, rfl⟩ := List.eq_nil_or_concat rest
    · simp at h
    obtain rfl | ⟨headers, a, rfl⟩ := List.eq_nil_or_concat rest
    · simp at h
    exact ⟨path, headers, a, b, by simp⟩

/-- **`handshake` on any string.** -/
theorem handshake_cases (c : Connection) :
    Headed c.si.recvBuffer ∧ (∃ c', handshake P c = .ok c' ∧ AnsweredOrKept P c c') ∨
      ¬ Headed c.si.recvBuffer ∧ handshake P c = .error .outOfBounds := by
  by_cases hnil : c.si.recvBuffer = []
  · right
    rw [handshake, hnil]
    exact ⟨headed_nil, rfl⟩
  obtain ⟨ps, -, hfree, hjoin⟩ := Split.exists_pieces (by decide : crlf ≠ []) c.si.recvBuffer
  rw [← hjoin] at hnil
  have hsplit : DoString.split c.si.recvBuffer crlf false = some ps := by
    rw [← hjoin, DoString.split,
      Split.splitWith_intercalate _ Upgrade.borderless_crlf (by decide) hfree hnil]
    simp
  rw [← hjoin, headed_intercalate hfree hnil]
  obtain hshort | ⟨path, headers, a, b, rfl⟩ := three_pieces ps
  · right
    refine ⟨?_, ?_⟩
    · rintro ⟨path, headers, a, b, rfl, -⟩
      simp only [List.length_cons, List.length_append, List.length_nil] at hshort
      omega
    · have htake : ps.take (ps.length - 2) = [] ∨ ps.length < 2 := by
        by_cases h2 : ps.length < 2
        · exact .inr h2
        · left
          rw [show ps.length - 2 = 0 by omega, List.take_zero]
      rw [handshake, hsplit]
      simp only
      split
      · rfl
      · rw [htake.resolve_right ‹_›]
  · obtain ⟨hcolon, hclean⟩ | ⟨hcolon, herr⟩ := handshake_of_pieces (P := P) c hsplit
    · exact .inl ⟨⟨path, headers, a, b, rfl, hcolon⟩, hclean⟩
    · refine .inr ⟨?_, herr⟩
      rintro ⟨path', headers', a', b', heq, hcolon'⟩
      obtain ⟨-, htail⟩ := List.cons.inj heq
      obtain ⟨rfl, -⟩ := List.append_inj' htail rfl
      exact hcolon hcolon'

/-- **When the handshake takes a chunk cleanly.** -/
theorem handshake_clean_iff (P : CryptoPP) (c : Connection) (chunk : List UInt8)
    (hlen : chunk.length ≤ 1499) (hstatus : c.si.status = .wsHandshark) :
    (∃ c', recvCb P c (.data chunk) = .ok (some c') ∧ AnsweredOrKept P c c') ↔
      Headed (cstr chunk) := by
  have hmem : (0 : UInt8) ∈ padTo bufferSize chunk := by
    refine List.mem_append_right _ (List.mem_replicate.mpr ⟨?_, rfl⟩)
    show 1500 - chunk.length ≠ 0
    omega
  have hstore : store c chunk = .ok { c with si := { c.si with recvBuffer := cstr chunk } } := by
    rw [store, if_pos hmem, cstr_padTo_eq]
  have hrecv : recvCb P c (.data chunk) =
      (handshake P { c with si := { c.si with recvBuffer := cstr chunk } }).map some := by
    simp only [recvCb, hstore, hstatus]
  rw [hrecv]
  obtain ⟨hheaded, c', hok, hclean⟩ | ⟨hheaded, herr⟩ :=
    handshake_cases (P := P) { c with si := { c.si with recvBuffer := cstr chunk } }
  · exact iff_of_true ⟨c', by rw [hok]; rfl, hclean⟩ hheaded
  · refine iff_of_false ?_ hheaded
    rintro ⟨c', hok, -⟩
    rw [herr] at hok
    cases hok

/-- A request line and a header. -/
theorem handshake_clean_sample :
    ∃ c', recvCb sampleCryptoPP sampleConnection (.data (ascii "GET / HTTP/1.1\r\nHost: a\r\n\r\n")) =
      .ok (some c') ∧ AnsweredOrKept sampleCryptoPP sampleConnection c' :=
  (handshake_clean_iff _ _ _ (by decide) rfl).mpr
    ⟨ascii "GET / HTTP/1.1", [ascii "Host: a"], [], [], by decide, by decide, by decide⟩

/-- Half a request line: there is no `headers.end() - 2`. -/
theorem handshake_leaves_vector :
    (ascii "GET /ch").length ≤ 1499 ∧ sampleConnection.si.status = .wsHandshark ∧
      recvCb sampleCryptoPP sampleConnection (.data (ascii "GET /ch")) = .error .outOfBounds :=
  ⟨by decide, rfl, by rfl⟩

/-! ## A frame -/

/-- The bytes of a client's text frame that is short enough for the seven-bit form. -/
theorem serialize_clientText_short (key : Rfc6455.MaskKey) {payload : List UInt8}
    (h : payload.length ≤ 125) :
    Rfc6455.serialize (Rfc6455.clientText key payload) =
      0x81 :: UInt8.ofNat (128 + payload.length) ::
        (List.ofFn key ++ Rfc6455.applyMask key payload) := by
  rw [serialize_clientText, Rfc6455.lengthCode, Rfc6455.lengthBytes, if_pos (by omega),
    if_pos (by omega), List.nil_append]

theorem length_clientText_short (key : Rfc6455.MaskKey) {payload : List UInt8}
    (h : payload.length ≤ 125) :
    (Rfc6455.serialize (Rfc6455.clientText key payload)).length = 6 + payload.length := by
  rw [serialize_clientText_short key h]
  simp only [List.length_cons, List.length_append, List.length_ofFn, Rfc6455.length_applyMask]
  omega

theorem ofNat_length_ne_zero {payload : List UInt8} (h : payload.length ≤ 125) :
    UInt8.ofNat (128 + payload.length) ≠ 0 := by
  intro h0
  have := congrArg UInt8.toNat h0
  rw [UInt8.toNat_ofNat', Nat.mod_eq_of_lt (by omega)] at this
  simp at this

/-- The two bytes of its header are not zero. -/
theorem zero_notMem_clientText_iff (key : Rfc6455.MaskKey) {payload : List UInt8}
    (h : payload.length ≤ 125) :
    (0 : UInt8) ∉ Rfc6455.serialize (Rfc6455.clientText key payload) ↔
      (∀ i, key i ≠ 0) ∧ (0 : UInt8) ∉ Rfc6455.applyMask key payload := by
  have hlen := ofNat_length_ne_zero h
  rw [serialize_clientText_short key h]
  simp only [List.mem_cons, List.mem_append, List.mem_ofFn, not_or, not_exists]
  exact ⟨fun hnot => hnot.2.2, fun hnot => ⟨by decide, hlen.symm, hnot⟩⟩

/-- The length field of a frame that was cut at a zero byte. -/
theorem shortLength_cstr (key : Rfc6455.MaskKey) {payload : List UInt8} (h : payload.length ≤ 125)
    (rest : List UInt8) :
    shortLength (cstr (Rfc6455.serialize (Rfc6455.clientText key payload)) ++ rest) =
      payload.length := by
  have hlen := ofNat_length_ne_zero h
  rw [serialize_clientText_short key h, shortLength, cstr, List.takeWhile_cons_of_pos (by decide),
    List.takeWhile_cons_of_pos (by simpa using hlen), List.cons_append, List.cons_append,
    List.getD_cons_succ, List.getD_cons_zero, UInt8.toNat_ofNat']
  omega

/-- A string cut at a zero byte is shorter. -/
theorem length_cstr_lt {l : List UInt8} (h : (0 : UInt8) ∈ l) : (cstr l).length < l.length := by
  obtain ⟨t, ht⟩ := exists_eq_cstr_append h
  have := congrArg List.length ht
  rw [List.length_append, List.length_cons] at this
  omega

/-- A zero byte may stand at the end, if the terminator may be used. -/
theorem length_le_cstr_iff {l : List UInt8} (hl : l ≠ []) :
    l.length ≤ (cstr l).length + 1 ↔ (0 : UInt8) ∉ l.dropLast := by
  have hlen : l.dropLast.length + 1 = l.length := by
    have := List.length_pos_iff.mpr hl
    rw [List.length_dropLast]
    omega
  constructor
  · intro h hzero
    have hpre : l.dropLast <+: cstr l :=
      List.prefix_of_prefix_length_le (List.dropLast_prefix l) (cstr_isPrefix l) (by omega)
    exact zero_notMem_cstr l (hpre.subset hzero)
  · intro h
    have hcut := cstr_append h [l.getLast hl]
    rw [List.dropLast_concat_getLast] at hcut
    rw [hcut, List.length_append]
    omega

/-- `data_tranform` on a frame, with the terminator of `recv_buffer`. -/
theorem dataTranform_ok_iff (c : Connection) (key : Rfc6455.MaskKey) {payload : List UInt8}
    (hlen : payload.length ≤ 125)
    (hc : c.si.recvBuffer = cstr (Rfc6455.serialize (Rfc6455.clientText key payload))) :
    (∃ c', dataTranform c = .ok c') ↔
      (0 : UInt8) ∉ (Rfc6455.serialize (Rfc6455.clientText key payload)).dropLast := by
  have hne : Rfc6455.serialize (Rfc6455.clientText key payload) ≠ [] := by
    rw [serialize_clientText_short key hlen]
    exact List.cons_ne_nil _ _
  have hshort := shortLength_cstr key hlen [0]
  rw [← hc] at hshort
  rw [← length_le_cstr_iff hne, length_clientText_short key hlen, ← hc, dataTranform]
  constructor
  · rintro ⟨c', hok⟩
    split at hok
    · cases hok
    · rename_i r hr
      have hle := le_of_decodePacket_eq_some hr
      rw [Block.toList_ofList, hshort, List.length_append, List.length_singleton] at hle
      exact hle
  · intro hle
    obtain ⟨b, hb, -⟩ := decodePacket_eq (Block.ofList (c.si.recvBuffer ++ [0]))
      c.si.recvBuffer.length
      (by rwa [Block.toList_ofList, hshort, List.length_append, List.length_singleton])
    rw [hb]
    exact ⟨_, rfl⟩

/-- `decode_packet` stays inside `recv_buffer`, and yields the payload. -/
def FrameDecoded (c : Connection) (key : Rfc6455.MaskKey) (payload : List UInt8) : Prop :=
  ∃ r, decodePacket (Block.ofList c.si.recvBuffer) c.si.recvBuffer.length = some r ∧
    r.Yields key payload

/-- **When a frame is decoded from what is left of it in `recv_buffer`.**  A zero byte, in the key
or in the masked payload, ends the string, and `decode_packet` runs past its end. -/
theorem frame_decoded_iff (P : CryptoPP) (c : Connection) (hstatus : c.si.status = .wsDatatransform)
    (key : Rfc6455.MaskKey) (payload : List UInt8) (hlen : payload.length ≤ 125) :
    ∃ c', store c (Rfc6455.serialize (Rfc6455.clientText key payload)) = .ok c' ∧
      recvCb P c (.data (Rfc6455.serialize (Rfc6455.clientText key payload))) =
        (dataTranform c').map some ∧
      (FrameDecoded c' key payload ↔
        (∀ i, key i ≠ 0) ∧ (0 : UInt8) ∉ Rfc6455.applyMask key payload) := by
  have hframe := length_clientText_short key hlen
  have hmem : (0 : UInt8) ∈ padTo bufferSize (Rfc6455.serialize (Rfc6455.clientText key payload)) := by
    refine List.mem_append_right _ (List.mem_replicate.mpr ⟨?_, rfl⟩)
    rw [hframe]
    show 1500 - (6 + payload.length) ≠ 0
    omega
  have hstore : store c (Rfc6455.serialize (Rfc6455.clientText key payload)) = .ok { c with
      si := { c.si with
        recvBuffer := cstr (Rfc6455.serialize (Rfc6455.clientText key payload)) } } := by
    rw [store, if_pos hmem, cstr_padTo_eq]
  refine ⟨_, hstore, by simp only [recvCb, hstore, hstatus], ?_⟩
  rw [← zero_notMem_clientText_iff key hlen]
  constructor
  · rintro ⟨r, hr, -⟩ hzero
    have hle := le_of_decodePacket_eq_some hr
    have hshort := shortLength_cstr key hlen []
    rw [List.append_nil] at hshort
    rw [Block.toList_ofList] at hle
    simp only [hshort] at hle
    have hlt := length_cstr_lt hzero
    omega
  · intro hzero
    refine (decodePacket_clientText_iff _ key payload [] ?_).mpr (.inl (by omega))
    rw [Block.toList_ofList, List.append_nil]
    exact cstr_eq_self hzero

/-- A connection that has had its handshake. -/
def openConnection : Connection :=
  { sampleConnection with si := { sampleConnection.si with status := .wsDatatransform } }

theorem frame_decoded_hello :
    ∃ c', store openConnection (Rfc6455.serialize
        (Rfc6455.clientText ![0x37, 0xfa, 0x21, 0x3d] (ascii "Hello"))) = .ok c' ∧
      FrameDecoded c' ![0x37, 0xfa, 0x21, 0x3d] (ascii "Hello") := by
  obtain ⟨c', hstore, -, hiff⟩ := frame_decoded_iff sampleCryptoPP openConnection rfl
    ![0x37, 0xfa, 0x21, 0x3d] (ascii "Hello") (by decide)
  exact ⟨c', hstore, hiff.mpr ⟨by decide, by decide⟩⟩

/-- A key that starts with a zero byte: of the frame only the header is left. -/
theorem frame_not_decoded :
    ∃ c', store openConnection (Rfc6455.serialize
        (Rfc6455.clientText ![0, 0xfa, 0x21, 0x3d] (ascii "Hello"))) = .ok c' ∧
      c'.si.recvBuffer = [0x81, 0x85] ∧ ¬ FrameDecoded c' ![0, 0xfa, 0x21, 0x3d] (ascii "Hello") := by
  refine ⟨{ openConnection with si := { openConnection.si with recvBuffer := [0x81, 0x85] } }, ?_,
    rfl, ?_⟩
  · rfl
  · rintro ⟨r, hr, -⟩
    exact absurd (le_of_decodePacket_eq_some hr) (by decide)

end EpollWebsocketCpp
end WebSocket
end UnixNetwork
