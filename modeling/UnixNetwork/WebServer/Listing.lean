import UnixNetwork.Protocol.Rfc3986
import UnixNetwork.WebServer.Isolation

/-!
# Do the links of a listing lead back?

For a directory both servers send a list of links, one for each entry: its name,
with a slash behind it if it is a directory itself, once as the `href` and once as
the text.  The name is put there as it is.  A request for a link comes back
through `split` and `UrlDecode`, and these are not the inverse of doing nothing.

`link_leads_back_iff` says for which names and spellings the link leads back to the
entry, for each server.  A quotation mark ends the `href` early; a plus sign comes
back as a space; a percent sign, a space or (in the epoll server, which reads a
line) a newline must have been escaped by the client; and the request must fit
into the buffer.

The core is `parseRequest_link_iff`, on any part of the request that was received.
One direction is a count: decoding a spelling gives at most one byte for each byte
of the link, and less for each `%` that stands for itself, so only a link that was
neither cut nor spelled with such a `%` can come back whole.
-/

namespace UnixNetwork
namespace WebServer

open Bytes
open Rfc3986 (Spelled spell)

/-! ## The code -/

/-- An entry of a directory. -/
structure DirectoryEntry where
  filename : List UInt8
  isDirectory : Bool
  ne_nil : filename ≠ []
  slash_notMem : (47 : UInt8) ∉ filename
  nul_notMem : (0 : UInt8) ∉ filename

/-- What the loop over the directory puts into `dirs`. -/
def DirectoryEntry.li (e : DirectoryEntry) : List UInt8 :=
  if e.isDirectory then e.filename ++ ascii "/" else e.filename

/-- `string_li`. -/
def stringLi (li : List UInt8) : List UInt8 :=
  ascii "<li><a href=\"" ++ li ++ ascii "\">" ++ li ++ ascii "</a></li>"

/-! ## The client -/

/-- The value of the `href` in a list item: what stands between its quotation
marks. -/
def hrefValue (item : List UInt8) : List UInt8 :=
  (item.drop (ascii "<li><a href=\"").length).takeWhile (· ≠ 34)

/-- The request for a link in the root directory, in some spelling. -/
def request (ts : List Spelled) (rest : List UInt8) : List UInt8 :=
  ascii "GET /" ++ (spell ts ++ 32 :: (ascii "HTTP/1.1\r\n" ++ rest))

theorem hrefValue_stringLi (li : List UInt8) : hrefValue (stringLi li) = li.takeWhile (· ≠ 34) := by
  have hquote : ascii "\">" = [34, 62] := by decide
  simp only [hrefValue, stringLi, List.append_assoc, List.drop_left, hquote, List.cons_append]
  exact Split.takeWhile_append_cons 34 li _

/-! ## Decoding a spelling -/

theorem escape_hexDigit : ∀ (c : UInt8) (u v : Bool),
    escape (Rfc3986.hexDigit u (c.toNat / 16)) (Rfc3986.hexDigit v (c.toNat % 16)) = .ok c :=
  forall_byte (by decide +kernel)

/-- A spelling gives at most one byte for each byte of the link. -/
theorem length_urlDecode_spell {ts : List Spelled} {decoded : List UInt8}
    (h : urlDecode (spell ts) = .ok decoded) :
    decoded.length + 2 * ts.count (.verbatim 37) = ts.length := by
  have hdec := (urlDecode_eq_ok_iff.mp h).length
  have hspell := Rfc3986.length_spell ts
  omega

/-- What `UrlDecode` makes of one byte of a link. -/
def comesBack (x : Spelled) : UInt8 := if x = .verbatim 43 then 32 else x.byte

theorem urlDecode_spell {ts : List Spelled} (h : .verbatim 37 ∉ ts) :
    urlDecode (spell ts) = .ok (ts.map comesBack) := by
  rw [urlDecode_eq_ok_iff]
  induction ts with
  | nil => exact .nil
  | cons x ts ih =>
    rw [List.mem_cons, not_or] at h
    have hrest := ih h.2
    rw [Rfc3986.spell_cons, List.map_cons]
    cases x with
    | verbatim c =>
      have hc : c ≠ 37 := fun hc => h.1 (hc ▸ rfl)
      by_cases hplus : c = 43
      · subst hplus
        exact .plus hrest
      · rw [comesBack, if_neg (by simpa using hplus)]
        exact .plain hplus hc hrest
    | escaped c u v hc => exact .escape (escape_hexDigit c u v) hrest

/-! ## One request line -/

theorem rawPath_get (t : List UInt8) :
    rawPath (ascii "GET /" ++ t) = if 32 ∈ t then some (t.takeWhile (· ≠ 32)) else none := by
  have hget : ascii "GET /" ++ t = ascii "GET" ++ 32 :: (47 :: t) := rfl
  have hlower : (ascii "GET").map toLower = ascii "get" := by decide
  rw [rawPath, hget, List.splitOn_append_cons_self_of_not_mem (by decide)]
  by_cases hmem : 32 ∈ t
  · obtain ⟨a, b, rfl, ha⟩ := List.eq_append_cons_of_mem hmem
    obtain ⟨q, qs, hq⟩ := List.exists_cons_of_ne_nil (List.splitOn_ne_nil 32 b)
    have ha' : (32 : UInt8) ∉ 47 :: a := by
      rw [List.mem_cons, not_or]
      exact ⟨by decide, ha⟩
    rw [← List.cons_append, List.splitOn_append_cons_self_of_not_mem ha', hq, if_pos hmem,
      Split.takeWhile_append_cons, Split.takeWhile_of_notMem ha]
    exact if_pos hlower
  · have hmem' : (32 : UInt8) ∉ 47 :: t := by
      rw [List.mem_cons, not_or]
      exact ⟨by decide, hmem⟩
    rw [List.splitOn_eq_singleton hmem', if_neg hmem]

/-- What comes back of a link, as far as it was not cut by a space. -/
theorem urlDecode_link_iff {li : List UInt8} {ts : List Spelled}
    (hts : ts.map Spelled.byte = li.takeWhile (· ≠ 34)) :
    urlDecode (spell (ts.takeWhile (· ≠ .verbatim 32))) = .ok li ↔
      34 ∉ li ∧ ∀ c ∈ ([32, 37, 43] : List UInt8), .verbatim c ∉ ts := by
  have hlen : ts.length = (li.takeWhile (· ≠ 34)).length := by rw [← hts, List.length_map]
  constructor
  · intro hdec
    -- everything is as long as it can be
    have hcount := length_urlDecode_spell hdec
    have hcut := (List.takeWhile_prefix (fun x => decide (x ≠ Spelled.verbatim 32)) (l := ts)).length_le
    have hvalue := (List.takeWhile_prefix (fun x => decide (x ≠ (34 : UInt8))) (l := li)).length_le
    have hquote : 34 ∉ li := Split.notMem_of_length_takeWhile (by omega)
    have hspace : .verbatim 32 ∉ ts := Split.notMem_of_length_takeWhile (by omega)
    rw [Split.takeWhile_of_notMem hspace] at hdec hcount
    rw [Split.takeWhile_of_notMem hquote] at hts hlen
    have hpercent : .verbatim 37 ∉ ts := List.count_eq_zero.mp (by omega)
    have hplus : .verbatim 43 ∉ ts := by
      intro hmem
      rw [urlDecode_spell hpercent, ← hts] at hdec
      have := List.map_inj_left.mp (Except.ok.inj hdec) _ hmem
      revert this
      decide
    refine ⟨hquote, ?_⟩
    intro c hc
    simp only [List.mem_cons, List.not_mem_nil, or_false] at hc
    rcases hc with rfl | rfl | rfl
    · exact hspace
    · exact hpercent
    · exact hplus
  · rintro ⟨hquote, hplain⟩
    rw [Split.takeWhile_of_notMem (hplain 32 (by decide)), urlDecode_spell (hplain 37 (by decide)),
      ← Split.takeWhile_of_notMem hquote, ← hts]
    refine congrArg Except.ok (List.map_congr_left fun x hx => ?_)
    rw [comesBack, if_neg]
    rintro rfl
    exact hplain 43 (by decide) hx

/-- **A link and what was received of the request for it.**  The link comes back
exactly if the space behind it was received, and nothing in its spelling means
something else to the server. -/
theorem parseRequest_link_iff {li t w : List UInt8} {ts : List Spelled} (hli : li ≠ [])
    (hts : ts.map Spelled.byte = li.takeWhile (· ≠ 34)) (ht : t <+: spell ts ++ 32 :: w) :
    parseRequest (ascii "GET /" ++ t) = .ok (some li) ↔
      32 ∈ t ∧ 34 ∉ li ∧ ∀ c ∈ ([32, 37, 43] : List UInt8), .verbatim c ∉ ts := by
  rw [parseRequest_eq_file_iff, rawPath_get]
  by_cases hmem : 32 ∈ t
  · rw [if_pos hmem, Split.takeWhile_of_isPrefix ht hmem, Split.takeWhile_append_cons,
      Rfc3986.takeWhile_spell, ← urlDecode_link_iff hts]
    constructor
    · rintro ⟨raw, hraw, decoded, hdec, hfile⟩
      obtain rfl : spell (ts.takeWhile (· ≠ .verbatim 32)) = raw := Option.some_inj.mp hraw
      by_cases hnil : decoded = []
      · -- the root itself is `./`, and no link begins with a space
        rw [if_pos hnil] at hfile
        rw [hfile, show (ascii "./").takeWhile (· ≠ 34) = [46, 47] by decide] at hts
        cases ts with
        | nil => cases hts
        | cons x ts =>
          have hx : x ≠ .verbatim 32 := by
            rintro rfl
            exact absurd (List.cons.inj hts).1 (by decide)
          have hspell := (urlDecode_eq_ok_iff.mp (hnil ▸ hdec)).eq_nil
          rw [List.takeWhile_cons, if_pos (by simpa using hx), Rfc3986.spell_cons] at hspell
          cases x <;> cases hspell
      · rw [if_neg hnil] at hfile
        exact ⟨hmem, hfile ▸ hdec⟩
    · rintro ⟨-, hdec⟩
      exact ⟨_, rfl, li, hdec, (if_neg hli).symm⟩
  · simp [hmem]

/-! ## Both servers -/

namespace DirectoryEntry

variable (e : DirectoryEntry)

theorem li_ne_nil : e.li ≠ [] := by
  unfold li
  split
  · exact List.append_ne_nil_of_left_ne_nil e.ne_nil _
  · exact e.ne_nil

theorem mem_li {c : UInt8} (hc : c ≠ 47) : c ∈ e.li ↔ c ∈ e.filename := by
  have hslash : ascii "/" = [47] := by decide
  unfold li
  split
  · rw [hslash, List.mem_append, List.mem_singleton, or_iff_left hc]
  · rfl

end DirectoryEntry

/-- No NUL is sent for a link. -/
theorem nul_notMem_spell {e : DirectoryEntry} {ts : List Spelled}
    (hts : ts.map Spelled.byte = e.li.takeWhile (· ≠ 34)) : (0 : UInt8) ∉ spell ts := by
  rw [Rfc3986.mem_spell (by decide)]
  intro hmem
  have hbyte : (0 : UInt8) ∈ ts.map Spelled.byte := List.mem_map_of_mem hmem
  rw [hts] at hbyte
  exact e.nul_notMem ((e.mem_li (by decide)).mp ((List.takeWhile_prefix _).subset hbyte))

/-- In the epoll server the space behind the link is received if the link has no
newline and is not too long. -/
theorem space_mem_takeLine_iff {ts : List Spelled} (h0 : (0 : UInt8) ∉ spell ts)
    (hspace : .verbatim 32 ∉ ts) (w : List UInt8) :
    32 ∈ cstr (takeLine 1494 (spell ts ++ 32 :: w)) ↔
      .verbatim 10 ∉ ts ∧ (spell ts).length ≤ 1493 := by
  have hspace' : (32 : UInt8) ∉ spell ts := by rwa [Rfc3986.mem_spell (by decide)]
  rw [← Rfc3986.mem_spell (by decide)]
  constructor
  · intro hmem
    obtain ⟨hlen, hnl⟩ := of_mem_takeLine hspace' ((cstr_isPrefix _).subset hmem)
    exact ⟨hnl (by decide), by omega⟩
  · rintro ⟨hnl, hlen⟩
    obtain ⟨k, hk⟩ : ∃ k, 1494 = (spell ts).length + (k + 1) :=
      ⟨1493 - (spell ts).length, by omega⟩
    rw [hk, takeLine_append hnl, takeLine, if_neg (by decide), cstr_append h0]
    exact List.mem_append_right _ List.mem_cons_self

/-- In the libevent server it is received whenever the buffer is terminated. -/
theorem space_mem_take {ts : List Spelled} (h0 : (0 : UInt8) ∉ spell ts) {w : List UInt8} {k : ℕ}
    (h : (spell ts ++ 32 :: w).length ≤ k ∨ (0 : UInt8) ∈ (spell ts ++ 32 :: w).take k) :
    32 ∈ cstr ((spell ts ++ 32 :: w).take k) := by
  have hlen : (spell ts).length < k := by
    by_contra hlong
    rcases h with h | h
    · rw [List.length_append, List.length_cons] at h
      omega
    · rw [List.take_append_of_le_length (by omega)] at h
      exact h0 (List.mem_of_mem_take h)
  obtain ⟨j, rfl⟩ : ∃ j, k = (spell ts).length + (j + 1) := ⟨k - (spell ts).length - 1, by omega⟩
  rw [List.take_length_add_append, List.take_succ_cons, cstr_append h0]
  exact List.mem_append_right _ List.mem_cons_self

/-- The epoll server, by the line it reads. -/
theorem readClientRequests_file_iff {s s' : State} {fd : Fd} {line file : List UInt8}
    (h : readRequest s fd = some (some line, s')) :
    (∃ s'', readClientRequests s fd = .ok (.file file, s'')) ↔
      parseRequest line = .ok (some file) := by
  constructor
  · rintro ⟨s'', hcall⟩
    obtain ⟨line', hread, hparse⟩ := (readClientRequests_eq_file_iff s s'' fd file).mp hcall
    cases h.symm.trans hread
    exact hparse
  · intro hparse
    exact ⟨s', (readClientRequests_eq_file_iff s s' fd file).mpr ⟨line, h, hparse⟩⟩

section

variable {e : DirectoryEntry} {ts : List Spelled}
  (hts : ts.map Spelled.byte = e.li.takeWhile (· ≠ 34)) (rest : List UInt8)

include hts

/-- The epoll server, once the request is there. -/
theorem readClientRequests_link_iff {s : State} {fd : Fd} (hhas : Has fd s (request ts rest)) :
    (∃ s', readClientRequests s fd = .ok (.file e.li, s')) ↔
      34 ∉ e.filename ∧ (∀ c ∈ ([32, 37, 43] : List UInt8), .verbatim c ∉ ts) ∧
        .verbatim 10 ∉ ts ∧ (spell ts).length ≤ 1493 := by
  have h0 := nul_notMem_spell hts
  have hnl : (10 : UInt8) ∈ request ts rest := by
    refine List.mem_append_right _ (List.mem_append_right _ (List.mem_cons_of_mem _ ?_))
    exact List.mem_append_left _ (by decide)
  have hline : cstr (takeLine 1499 (request ts rest)) = ascii "GET /" ++
      cstr (takeLine 1494 (spell ts ++ 32 :: (ascii "HTTP/1.1\r\n" ++ rest))) := by
    have hlen : 1499 = (ascii "GET /").length + 1494 := by decide
    rw [request, hlen, takeLine_append (by decide), cstr_append (by decide)]
  obtain ⟨s', hread⟩ := readRequest_has hhas (Or.inl hnl)
  rw [readClientRequests_file_iff hread, hline,
    parseRequest_link_iff e.li_ne_nil hts ((cstr_isPrefix _).trans (takeLine_isPrefix _ _)),
    e.mem_li (by decide)]
  constructor
  · rintro ⟨hmem, hquote, hplain⟩
    exact ⟨hquote, hplain, (space_mem_takeLine_iff h0 (hplain 32 (by decide)) _).mp hmem⟩
  · rintro ⟨hquote, hplain, hfits⟩
    exact ⟨(space_mem_takeLine_iff h0 (hplain 32 (by decide)) _).mpr hfits, hquote, hplain⟩

/-- The libevent server. -/
theorem readCb_link_iff :
    readCb (request ts rest) = .ok (some e.li) ↔
      34 ∉ e.filename ∧ (∀ c ∈ ([32, 37, 43] : List UInt8), .verbatim c ∉ ts) ∧
        ((request ts rest).length < 256 ∨ (0 : UInt8) ∈ (request ts rest).take 256) := by
  set u := spell ts ++ 32 :: (ascii "HTTP/1.1\r\n" ++ rest) with hu
  have hget0 : (0 : UInt8) ∉ ascii "GET /" := by decide
  have htake : (request ts rest).take bufferSize = ascii "GET /" ++ u.take 251 := by
    have hlen : bufferSize = (ascii "GET /").length + 251 := by decide
    rw [request, hlen, List.take_length_add_append]
  have hsize : (request ts rest).length = 5 + u.length := List.length_append
  rw [readCb_eq]
  by_cases hterm : (request ts rest).length < bufferSize ∨
      (0 : UInt8) ∈ (request ts rest).take bufferSize
  · have hspace : 32 ∈ cstr (u.take 251) := by
      refine space_mem_take (nul_notMem_spell hts) ?_
      rcases hterm with hlen | hmem
      · left
        show u.length ≤ 251
        rw [hsize, bufferSize] at hlen
        omega
      · rw [htake] at hmem
        exact Or.inr ((List.mem_append.mp hmem).resolve_left hget0)
    rw [if_pos hterm, htake, cstr_append hget0, parseRequest_link_iff e.li_ne_nil hts
      ((cstr_isPrefix _).trans (List.take_prefix _ _)), e.mem_li (by decide)]
    exact ⟨fun h => ⟨h.2.1, h.2.2, hterm⟩, fun h => ⟨hspace, h.1, h.2.1⟩⟩
  · rw [if_neg hterm]
    constructor
    · intro h
      cases h
    · intro h
      exact absurd h.2.2 hterm

end

/-- **When links lead back.**  A client requests the `href` of an entry of the root
directory, in some spelling.  The epoll server, once the request is there, and the
libevent server come to the entry again exactly under these conditions. -/
theorem link_leads_back_iff (e : DirectoryEntry) (ts : List Spelled)
    (hts : ts.map Spelled.byte = hrefValue (stringLi e.li)) (rest : List UInt8) :
    (∀ (s : State) (fd : Fd), Has fd s (request ts rest) →
      ((∃ s', readClientRequests s fd = .ok (.file e.li, s')) ↔
        34 ∉ e.filename ∧ (∀ c ∈ ([32, 37, 43] : List UInt8), .verbatim c ∉ ts) ∧
          .verbatim 10 ∉ ts ∧ (spell ts).length ≤ 1493)) ∧
    (readCb (request ts rest) = .ok (some e.li) ↔
      34 ∉ e.filename ∧ (∀ c ∈ ([32, 37, 43] : List UInt8), .verbatim c ∉ ts) ∧
        ((request ts rest).length < 256 ∨ (0 : UInt8) ∈ (request ts rest).take 256)) := by
  rw [hrefValue_stringLi] at hts
  exact ⟨fun s fd hhas => readClientRequests_link_iff hts rest hhas, readCb_link_iff hts rest⟩

/-- The file `苦瓜.txt` of the repository's `web-http`. -/
def kugua : DirectoryEntry where
  filename := [0xe8, 0x8b, 0xa6, 0xe7, 0x93, 0x9c] ++ ascii ".txt"
  isDirectory := false
  ne_nil := by decide
  slash_notMem := by decide
  nul_notMem := by decide

/-- Its name with the bytes outside of ASCII escaped, as browsers send it. -/
def kuguaSpelled : List Spelled :=
  [.escaped 0xe8 true true (by decide), .escaped 0x8b true true (by decide),
    .escaped 0xa6 true true (by decide), .escaped 0xe7 true true (by decide),
    .escaped 0x93 true true (by decide), .escaped 0x9c true true (by decide)] ++
    (ascii ".txt").map .verbatim

/-- A request for that link, as one piece. -/
def kuguaState : State where
  static := MyRead.start
  input := fun _ =>
    [.data (request kuguaSpelled (ascii "\r\n")) (by decide +kernel) (by decide +kernel), .eagain]

theorem kugua_leads_back :
    (∃ s', readClientRequests kuguaState 5 = .ok (.file kugua.li, s')) ∧
      readCb (request kuguaSpelled (ascii "\r\n")) = .ok (some kugua.li) := by
  have hts : kuguaSpelled.map Spelled.byte = hrefValue (stringLi kugua.li) := by decide +kernel
  have hhas : Has 5 kuguaState (request kuguaSpelled (ascii "\r\n")) :=
    ⟨[.data (request kuguaSpelled (ascii "\r\n")) (by decide +kernel) (by decide +kernel)],
      [.eagain], rfl, by simp [ReadResult.Flows], by decide +kernel⟩
  obtain ⟨hepoll, hevent⟩ := link_leads_back_iff kugua kuguaSpelled hts (ascii "\r\n")
  exact ⟨(hepoll kuguaState 5 hhas).mpr (by decide +kernel), hevent.mpr (by decide +kernel)⟩

/-- The file `c++12.html` of the repository's `web-http`. -/
def cpp12 : DirectoryEntry where
  filename := ascii "c++12.html"
  isDirectory := false
  ne_nil := by decide
  slash_notMem := by decide
  nul_notMem := by decide

/-- A request for its link, as it stands in the listing. -/
def cpp12State : State where
  static := MyRead.start
  input := fun _ =>
    [.data (request (cpp12.li.map .verbatim) (ascii "\r\n")) (by decide +kernel)
      (by decide +kernel), .eagain]

/-- Both servers look for `c  12.html`. -/
theorem cpp12_does_not_lead_back :
    (cpp12.li.map Spelled.verbatim).map Spelled.byte = hrefValue (stringLi cpp12.li) ∧
      Has 5 cpp12State (request (cpp12.li.map .verbatim) (ascii "\r\n")) ∧
      (readClientRequests cpp12State 5).map Prod.fst = .ok (.file (ascii "c  12.html")) ∧
      readCb (request (cpp12.li.map .verbatim) (ascii "\r\n")) =
        .ok (some (ascii "c  12.html")) ∧
      cpp12.li ≠ ascii "c  12.html" := by
  refine ⟨by decide +kernel, ?_, by decide +kernel, by decide +kernel, by decide +kernel⟩
  exact ⟨[.data (request (cpp12.li.map .verbatim) (ascii "\r\n")) (by decide +kernel)
    (by decide +kernel)], [.eagain], rfl, by simp [ReadResult.Flows], by decide +kernel⟩

end WebServer
end UnixNetwork
