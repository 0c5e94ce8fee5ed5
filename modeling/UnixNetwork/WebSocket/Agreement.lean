import UnixNetwork.WebSocket.Handshake

/-!
# Do the two servers answer alike?

The same upgrade request, to the C server and to the C++ server.

The C++ server takes the last header named `Sec-WebSocket-Key` and hashes the
stripped text before the next colon.  The C server takes the first line that
contains that name anywhere --- the request line counts --- and hashes it from
offset `19` on, which is the key only if the line starts with the name, a colon
and exactly one space.  Then it encodes `strlen` many bytes of the digest, so that
a zero byte in the digest ends the text early.

`agrees_iff` says exactly when the responses are the same bytes.  Both servers are
computed on all requests first: `handshark_bytes` here, `handshake_bytes` in
`WebSocket.Handshake`.  The comparison of the encodings then rests on
`Rfc4648.encode_injective`, and on the digest's length: `cstr` of it can only be a
digest if it is all of it.
-/

namespace UnixNetwork
namespace WebSocket

open Bytes
open Upgrade (crlf colon)

/-! ## The walk of the C server -/

namespace EpollWebsocketC

variable {O : OpenSSL}

/-- The test of `readline` and of `handshark` for a line end. -/
theorem crlf_isPrefix_cons {c : UInt8} {rest : List UInt8} :
    crlf <+: c :: rest ↔ c = 13 ∧ rest.head? = some 10 := by
  cases rest with
  | nil => simp [crlf]
  | cons d rest => simp [crlf, eq_comm]

theorem crlf_isPrefix_drop {l : List UInt8} {i : ℕ} :
    crlf <+: l.drop i ↔ l.getD i 0 = 13 ∧ l.getD (i + 1) 0 = 10 := by
  induction i generalizing l with
  | zero =>
    match l with
    | [] => simp [crlf]
    | [c] => simp [crlf]
    | c :: d :: rest => simp [crlf, eq_comm]
  | succ i ih =>
    cases l with
    | nil => simp [crlf]
    | cons c l =>
      rw [List.drop_succ_cons, ih]
      simp

/-- `readline` on a line that has an end. -/
theorem readlineFrom_append {p : List UInt8} (hp : ¬ crlf <:+: p) (t : List UInt8) (level : ℕ) :
    readlineFrom (p ++ (crlf ++ t)) level = (some (level + p.length + 2), p) := by
  induction p generalizing level with
  | nil => simp [crlf, readlineFrom]
  | cons c p ih =>
    have hp' : ¬ crlf <:+: p := fun h => hp (h.trans (List.suffix_cons c p).isInfix)
    have hstart := Split.not_isPrefix_append Upgrade.borderless_crlf hp (List.cons_ne_nil _ _) t
    rw [List.cons_append, crlf_isPrefix_cons] at hstart
    rw [List.cons_append, readlineFrom, if_neg hstart, ih hp' (level + 1)]
    simp only [List.length_cons]
    congr 2
    omega

/-- `readline` on a line that has none. -/
theorem readlineFrom_of_not_infix {l : List UInt8} (hl : ¬ crlf <:+: l) (level : ℕ) :
    readlineFrom l level = (none, l) := by
  induction l generalizing level with
  | nil => rfl
  | cons c l ih =>
    rw [List.infix_cons_iff, not_or, crlf_isPrefix_cons] at hl
    rw [readlineFrom, if_neg hl.1, ih hl.2 (level + 1)]

/-- **The walk over the lines of a request** finds the first line with the name in
it.  Induction on the lines still to come, with what lies before them as `level`;
the walk goes on because none of the further lines is empty. -/
theorem handsharkLoop_lines (lines : List (List UInt8)) (hfree : ∀ l ∈ lines, ¬ crlf <:+: l)
    (hlen : ∀ l ∈ lines, l.length < 256) (hne : lines ≠ []) (htail : [] ∉ lines.tail)
    (done t : List UInt8)
    (h0 : (0 : UInt8) ∉ done ++ (lines.map (· ++ crlf)).flatten ++ crlf) (fuel : ℕ)
    (hfuel : lines.length ≤ fuel) :
    handsharkLoop O (done ++ (lines.map (· ++ crlf)).flatten ++ crlf ++ 0 :: t) fuel done.length =
      match lines.find? fun l => decide (secWebSocketKey <:+: l) with
      | some line => (answer O line).map some
      | none => .ok none := by
  induction lines generalizing done fuel with
  | nil => exact absurd rfl hne
  | cons l lines ih =>
    obtain ⟨fuel, rfl⟩ : ∃ k, fuel = k + 1 := ⟨fuel - 1, by simp at hfuel; omega⟩
    set rest := (lines.map (· ++ crlf)).flatten with hrest
    have hbuf : done ++ ((l :: lines).map (· ++ crlf)).flatten ++ crlf =
        done ++ (l ++ (crlf ++ (rest ++ crlf))) := by
      simp only [List.map_cons, List.flatten_cons, List.append_assoc, hrest]
    rw [hbuf] at h0 ⊢
    have hline : readline (done ++ (l ++ (crlf ++ (rest ++ crlf))) ++ 0 :: t) done.length =
        (some (done.length + l.length + 2), l) := by
      rw [readline, cstr_append_zero h0, List.drop_left,
        readlineFrom_append (hfree l List.mem_cons_self)]
    have hnext : done.length + l.length + 2 = (done ++ l ++ crlf).length := by
      simp only [List.length_append]
      rfl
    have hbuf' : done ++ (l ++ (crlf ++ (rest ++ crlf))) = done ++ l ++ crlf ++ rest ++ crlf := by
      simp only [List.append_assoc]
    have hdrop : (done ++ (l ++ (crlf ++ (rest ++ crlf))) ++ 0 :: t).drop
        (done.length + l.length + 2) = rest ++ (crlf ++ 0 :: t) := by
      rw [hnext, hbuf', List.append_assoc (_ ++ rest), List.append_assoc (done ++ l ++ crlf),
        List.drop_left]
    have hcrlf := crlf_isPrefix_drop (l := done ++ (l ++ (crlf ++ (rest ++ crlf))) ++ 0 :: t)
      (i := done.length + l.length + 2)
    rw [hdrop] at hcrlf
    rw [handsharkLoop, hline]
    dsimp only
    rw [if_neg (Nat.not_le.mpr (hlen l List.mem_cons_self))]
    by_cases hkey : secWebSocketKey <:+: l
    · rw [if_pos hkey, List.find?_cons_of_pos (by simpa using hkey)]
    · rw [if_neg hkey, List.find?_cons_of_neg (by simpa using hkey)]
      cases lines with
      | nil => exact if_pos (hcrlf.mp (List.prefix_append _ _))
      | cons l' lines =>
        have hl' : l' ≠ [] := by
          rintro rfl
          exact htail List.mem_cons_self
        have hmore : ¬ crlf <+: rest ++ (crlf ++ 0 :: t) := by
          rw [hrest, List.map_cons, List.flatten_cons, List.append_assoc, List.append_assoc]
          exact Split.not_isPrefix_append Upgrade.borderless_crlf
            (hfree l' (List.mem_cons_of_mem _ List.mem_cons_self)) hl' _
        rw [if_neg fun h => hmore (hcrlf.mpr h), hnext, hbuf']
        refine ih (fun x hx => hfree x (List.mem_cons_of_mem _ hx))
          (fun x hx => hlen x (List.mem_cons_of_mem _ hx)) (List.cons_ne_nil _ _)
          (fun h => htail (List.mem_of_mem_tail h)) (done ++ l ++ crlf) ?_ fuel
          (by simpa using hfuel)
        rwa [hbuf'] at h0

/-- The line the C server takes the key from. -/
def keyLine (r : Upgrade.Request) : Option (List UInt8) :=
  r.lines.find? fun l => decide (secWebSocketKey <:+: l)

/-- **`handshark` on a request** that does not fill the buffer. -/
theorem handshark_bytes (r : Upgrade.Request) (h0 : (0 : UInt8) ∉ r.bytes)
    (hlen : r.bytes.length < bufferLength) (hlines : ∀ l ∈ r.lines, l.length < 256)
    (recvbuffer sendbuffer : Block UInt8 bufferLength)
    (hrecv : recvbuffer.toList = padTo bufferLength r.bytes) :
    handshark O recvbuffer sendbuffer =
      match keyLine r with
      | some line => (answer O line).map some
      | none => .ok none := by
  obtain ⟨k, hk⟩ : ∃ k, bufferLength - r.bytes.length = k + 1 :=
    ⟨bufferLength - r.bytes.length - 1, by omega⟩
  have hbuf : allbuf recvbuffer sendbuffer =
      [] ++ (r.lines.map (· ++ crlf)).flatten ++ crlf ++
        0 :: (List.replicate k 0 ++ sendbuffer.toList ++ [0, 0, 0, 0]) := by
    rw [allbuf, hrecv, padTo, hk, List.replicate_succ, Upgrade.Request.bytes]
    simp only [List.append_assoc, List.cons_append, List.nil_append]
  have hcount : r.lines.length ≤ (allbuf recvbuffer sendbuffer).length + 1 := by
    have hjoin : r.lines.length ≤ (r.lines.map (· ++ crlf)).flatten.length :=
      Split.length_le_length_join (by decide) r.lines
    rw [hbuf]
    simp only [List.length_append]
    omega
  have htail : [] ∉ r.lines.tail := by
    intro hmem
    obtain ⟨h, -, hnil⟩ := List.mem_map.mp hmem
    exact List.cons_ne_nil _ _ (List.append_eq_nil_iff.mp hnil).2
  rw [handshark]
  generalize (allbuf recvbuffer sendbuffer).length + 1 = fuel at hcount
  rw [hbuf]
  exact handsharkLoop_lines r.lines (fun l hl => r.crlf_free_of_mem_lines hl) hlines
    (List.cons_ne_nil _ _) htail [] _ h0 fuel hcount

/-- What is assumed of the base64 filter, for inputs that make one line of output:
it writes RFC 4648 and a newline, where without any input the newline may be
missing too. -/
def FilterIsBase64 (O : OpenSSL) : Prop :=
  ∀ m : List UInt8, m.length ≤ 48 →
    O.base64Bio m = Rfc4648.encode m ++ [10] ∨ m = [] ∧ O.base64Bio m = []

/-- `base64_encode` on at most a digest. -/
theorem base64Encode_of_filter (hbio : FilterIsBase64 O) {m : List UInt8} (hm : m.length ≤ 20) :
    base64Encode O m = .ok (Rfc4648.encode m) ∨
      m = [] ∧ base64Encode O m = .error .outOfBounds := by
  rcases hbio m (by omega) with hdata | ⟨hnil, hdata⟩
  · left
    have hlen := Rfc4648.length_encode m
    unfold base64Encode
    rw [hdata, if_neg (by rw [List.length_append, List.length_singleton]; omega),
      List.dropLast_concat, cstr_eq_self (Rfc4648.zero_notMem_encode m)]
  · right
    refine ⟨hnil, ?_⟩
    unfold base64Encode
    rw [hdata]
    rfl

end EpollWebsocketC

/-! ## Agreement -/

open EpollWebsocketC EpollWebsocketCpp

theorem switchingProtocols_injective : Function.Injective switchingProtocols := by
  intro a b h
  unfold switchingProtocols at h
  simpa using h

/-- A digest is read as a C string: only a digest without a zero byte is read
whole. -/
theorem cstr_eq_of_length {d e : List UInt8} (hlen : d.length = e.length) :
    cstr d = e ↔ d = e ∧ (0 : UInt8) ∉ e := by
  constructor
  · intro h
    have hd : cstr d = d := by
      refine (cstr_isPrefix d).eq_of_length ?_
      rw [h, hlen]
    exact ⟨hd.symm.trans h, h ▸ zero_notMem_cstr d⟩
  · rintro ⟨rfl, h0⟩
    exact cstr_eq_self h0

/-- The C server, on a request whose lines are short: it answers the first line
with the name in it, unless the digest starts with a zero byte. -/
theorem handshark_answer {O : OpenSSL} (hbio : FilterIsBase64 O) (r : Upgrade.Request)
    (h0 : (0 : UInt8) ∉ r.bytes) (hlen : r.bytes.length < bufferLength)
    (hlines : ∀ l ∈ r.lines, l.length < 200) (recvbuffer sendbuffer : Block UInt8 bufferLength)
    (hrecv : recvbuffer.toList = padTo bufferLength r.bytes) {line : List UInt8}
    (hline : keyLine r = some line) :
    handshark O recvbuffer sendbuffer = .ok (some (switchingProtocols
        (Rfc4648.encode (cstr (O.sha1 ((line ++ guid).drop 19)))))) ∨
      cstr (O.sha1 ((line ++ guid).drop 19)) = [] ∧
        handshark O recvbuffer sendbuffer = .error .outOfBounds := by
  have hshort : line.length < 200 := hlines line (List.mem_of_find?_eq_some hline)
  have hguid : guid.length = 36 := by decide
  have hdigest : (cstr (O.sha1 ((line ++ guid).drop 19))).length ≤ 20 :=
    (cstr_length_le _).trans (O.length_sha1 _).le
  have hanswer : answer O line =
      (base64Encode O (cstr (O.sha1 ((line ++ guid).drop 19)))).map switchingProtocols :=
    if_neg (by rw [List.length_append, hguid]; omega)
  rw [handshark_bytes r h0 hlen (fun l hl => (hlines l hl).trans (by decide)) _ _ hrecv, hline]
  dsimp only
  rw [hanswer]
  rcases base64Encode_of_filter hbio hdigest with hok | ⟨hnil, herr⟩
  · left
    rw [hok]
    rfl
  · right
    rw [herr]
    exact ⟨hnil, rfl⟩

/-- The C++ server, on a request with one key header: it queues a response exactly
if the text of the header is not empty. -/
theorem recvCb_queues_iff {P : CryptoPP} (r : Upgrade.Request) (h0 : (0 : UInt8) ∉ r.bytes)
    (hlen : r.bytes.length < bufferSize) {h : Upgrade.Header}
    (hkey : r.headers.filter (·.name = secWebSocketKey) = [h]) (c : Connection)
    (hstatus : c.si.status = .wsHandshark) (hcallback : c.si.callback = .recvCb)
    (response : List UInt8) :
    (∃ c', recvCb P c (.data r.bytes) = .ok (some c') ∧ c'.si.callback = .sendCb ∧
      c'.si.sendBuffer = response) ↔
      h.text ≠ [] ∧ switchingProtocols (Rfc4648.encode (P.sha1 (h.text ++ guid))) = response := by
  have htext : (r.lastText secWebSocketKey).getD [] = h.text := by
    rw [Upgrade.Request.lastText, hkey]
    rfl
  rw [recvCb_bytes c r h0 hlen hstatus, handshake_bytes _ r rfl, htext]
  by_cases hne : h.text ≠ []
  · rw [if_pos hne]
    constructor
    · rintro ⟨c', hc', -, hsend⟩
      cases hc'
      exact ⟨hne, hsend⟩
    · rintro ⟨-, hsend⟩
      exact ⟨_, rfl, rfl, hsend⟩
  · rw [if_neg hne]
    constructor
    · rintro ⟨c', hc', hcb, -⟩
      cases hc'
      exact absurd (hcallback.symm.trans hcb) (by decide)
    · rintro ⟨hne', -⟩
      exact absurd hne' hne

/-- Both servers queue a response to the request, and it is the same. -/
def Agree (O : OpenSSL) (P : CryptoPP) (r : Upgrade.Request)
    (recvbuffer sendbuffer : Block UInt8 bufferLength) (c : Connection) : Prop :=
  ∃ response, handshark O recvbuffer sendbuffer = .ok (some response) ∧
    ∃ c', recvCb P c (.data r.bytes) = .ok (some c') ∧ c'.si.callback = .sendCb ∧
      c'.si.sendBuffer = response

/-- **When the two servers agree**, on a request with one key header.  The text of
that header must not be empty, the C server must come to a text with the same
digest, and the digest must not contain a zero byte. -/
theorem agree_iff (O : OpenSSL) (P : CryptoPP) (hbio : FilterIsBase64 O)
    (hsha : O.sha1 = P.sha1) (r : Upgrade.Request) (h0 : (0 : UInt8) ∉ r.bytes)
    (hlen : r.bytes.length < 1024) (hlines : ∀ l ∈ r.lines, l.length < 200) (h : Upgrade.Header)
    (hkey : r.headers.filter (·.name = secWebSocketKey) = [h])
    (recvbuffer sendbuffer : Block UInt8 bufferLength)
    (hrecv : recvbuffer.toList = padTo bufferLength r.bytes) (c : Connection)
    (hstatus : c.si.status = .wsHandshark) (hcallback : c.si.callback = .recvCb) :
    Agree O P r recvbuffer sendbuffer c ↔
      h.text ≠ [] ∧ (0 : UInt8) ∉ P.sha1 (h.text ++ guid) ∧
        ∃ line, keyLine r = some line ∧
          P.sha1 ((line ++ guid).drop 19) = P.sha1 (h.text ++ guid) := by
  have hmem : h ∈ r.headers ∧ h.name = secWebSocketKey := by
    have : h ∈ r.headers.filter (·.name = secWebSocketKey) := by
      rw [hkey]
      exact List.mem_singleton_self h
    simpa using this
  -- the header's own line has the name in it, so the C server finds some line
  obtain ⟨line, hline⟩ : ∃ line, keyLine r = some line := by
    refine Option.isSome_iff_exists.mp (List.find?_isSome.mpr ⟨h.line, ?_, ?_⟩)
    · exact List.mem_cons_of_mem _ (List.mem_map_of_mem hmem.1)
    · rw [decide_eq_true_eq, ← hmem.2]
      exact (List.prefix_append _ _).isInfix
  have hC := handshark_answer hbio r h0 hlen hlines recvbuffer sendbuffer hrecv hline
  have hCpp := recvCb_queues_iff (P := P) r h0 (hlen.trans (by decide)) hkey c hstatus hcallback
  rw [hsha] at hC
  have hdlen : (P.sha1 ((line ++ guid).drop 19)).length = (P.sha1 (h.text ++ guid)).length := by
    rw [P.length_sha1, P.length_sha1]
  constructor
  · rintro ⟨response, hresp, hqueue⟩
    obtain ⟨hne, hsame⟩ := (hCpp response).mp hqueue
    rcases hC with hok | ⟨-, herr⟩
    · rw [hok] at hresp
      have hbytes := (Option.some_inj.mp (Except.ok.inj hresp)).trans hsame.symm
      have hdigest := Rfc4648.encode_injective (switchingProtocols_injective hbytes)
      obtain ⟨heq, hzero⟩ := (cstr_eq_of_length hdlen).mp hdigest
      exact ⟨hne, hzero, line, hline, heq⟩
    · rw [herr] at hresp
      cases hresp
  · rintro ⟨hne, hzero, line', hline', heq⟩
    obtain rfl : line = line' := Option.some_inj.mp (hline.symm.trans hline')
    have hdigest := (cstr_eq_of_length hdlen).mpr ⟨heq, hzero⟩
    rcases hC with hok | ⟨hnil, -⟩
    · rw [hdigest] at hok
      exact ⟨_, hok, (hCpp _).mpr ⟨hne, rfl⟩⟩
    · have hlen20 := P.length_sha1 (h.text ++ guid)
      rw [← hdigest, hnil] at hlen20
      cases hlen20

/-- A request, received into a zeroed buffer. -/
def received (r : Upgrade.Request) (h : r.bytes.length ≤ bufferLength) : Block UInt8 bufferLength :=
  ⟨padTo bufferLength r.bytes, length_padTo h⟩

theorem filterIsBase64_sampleOpenSSL : FilterIsBase64 sampleOpenSSL := fun _ _ => Or.inl rfl

theorem agree_sample :
    Agree sampleOpenSSL sampleCryptoPP sampleUpgrade (received sampleUpgrade (by decide +kernel))
      (Block.zero bufferLength) sampleConnection := by
  refine (agree_iff sampleOpenSSL sampleCryptoPP filterIsBase64_sampleOpenSSL rfl sampleUpgrade
    (by decide +kernel) (by decide +kernel) (by decide +kernel)
    ⟨secWebSocketKey, ascii " dGhlIHNhbXBsZSBub25jZQ==", by decide, by decide⟩ rfl _ _ rfl
    sampleConnection rfl rfl).mpr ⟨by decide +kernel, by decide +kernel,
      secWebSocketKey ++ ascii ": dGhlIHNhbXBsZSBub25jZQ==", by decide +kernel, by decide +kernel⟩

theorem colon_notMem_host : Upgrade.colon ∉ ascii "Host" := by decide

theorem colon_notMem_secWebSocketKey : Upgrade.colon ∉ secWebSocketKey := by decide

/-- The request of the example with another key. -/
def zeroByteUpgrade : Upgrade.Request where
  requestLine := ascii "GET /chat HTTP/1.1"
  headers :=
    [⟨ascii "Host", ascii " server.example.com", colon_notMem_host, by decide⟩,
      ⟨secWebSocketKey, ascii " dGhlIHNhbXBsZSBub25jSw==", colon_notMem_secWebSocketKey,
        by decide⟩]
  crlf_free := EpollWebsocketCpp.sampleUpgrade.crlf_free

/-- SHA-1 on the text of that key, whose digest has a zero as its eighth byte, and
the base64 filter. -/
def zeroByteOpenSSL : OpenSSL where
  sha1 := fun m => if m = ascii "dGhlIHNhbXBsZSBub25jSw==" ++ guid then
      [0x09, 0xab, 0x96, 0xf1, 0xa9, 0x56, 0x9b, 0x00, 0x8e, 0x33,
        0x42, 0x1e, 0xeb, 0x70, 0x4d, 0x59, 0x6b, 0xf8, 0xa2, 0x5f]
    else List.replicate 20 0
  length_sha1 := by
    intro m
    split <;> rfl
  base64Bio := fun m => Rfc4648.encode m ++ [10]

/-- The same function, as CryptoPP's. -/
def zeroByteCryptoPP : CryptoPP := ⟨zeroByteOpenSSL.sha1, zeroByteOpenSSL.length_sha1⟩

/-- A key as any client might send it, answered differently: the C server encodes
seven bytes of the digest. -/
theorem not_agree_zero_byte :
    FilterIsBase64 zeroByteOpenSSL ∧ zeroByteOpenSSL.sha1 = zeroByteCryptoPP.sha1 ∧
      (0 : UInt8) ∉ zeroByteUpgrade.bytes ∧ zeroByteUpgrade.bytes.length < 1024 ∧
      (∀ l ∈ zeroByteUpgrade.lines, l.length < 200) ∧
      (zeroByteUpgrade.headers.filter (·.name = secWebSocketKey)).length = 1 ∧
      ¬ Agree zeroByteOpenSSL zeroByteCryptoPP zeroByteUpgrade
        (received zeroByteUpgrade (by decide +kernel)) (Block.zero bufferLength)
        sampleConnection := by
  have hbio : FilterIsBase64 zeroByteOpenSSL := fun _ _ => Or.inl rfl
  have h0 : (0 : UInt8) ∉ zeroByteUpgrade.bytes := by decide +kernel
  have hlen : zeroByteUpgrade.bytes.length < 1024 := by decide +kernel
  have hlines : ∀ l ∈ zeroByteUpgrade.lines, l.length < 200 := by decide +kernel
  refine ⟨hbio, rfl, h0, hlen, hlines, by decide +kernel, ?_⟩
  rintro ⟨response, hresp, hqueue⟩
  have hline : keyLine zeroByteUpgrade =
      some (secWebSocketKey ++ ascii ": dGhlIHNhbXBsZSBub25jSw==") := by decide +kernel
  have hC := handshark_answer hbio zeroByteUpgrade h0 hlen hlines
    (received zeroByteUpgrade hlen.le) (Block.zero bufferLength) rfl hline
  obtain ⟨-, hcpp⟩ := (recvCb_queues_iff zeroByteUpgrade h0 (by decide +kernel)
    (h := ⟨secWebSocketKey, ascii " dGhlIHNhbXBsZSBub25jSw==", by decide, by decide⟩) rfl
    sampleConnection rfl rfl response).mp hqueue
  rcases hC with hok | ⟨-, herr⟩
  · have hbytes := hok.symm.trans hresp
    rw [← hcpp] at hbytes
    revert hbytes
    decide +kernel
  · rw [herr] at hresp
    cases hresp

end WebSocket
end UnixNetwork
