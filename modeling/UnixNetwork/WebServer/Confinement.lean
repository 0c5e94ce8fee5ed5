import UnixNetwork.Bytes.LexicalPath
import UnixNetwork.WebServer.Requests

/-!
# Do the servers stay below their directory?

Both servers change to `web-http`, take the first character off the path of a
request, decode the rest, and use what comes out as the name of a file.  Neither
looks at it.

`Safe` is the check they could have made on the path as it was sent, before any
decoding: one pass over it, in which an escape counts as the byte it stands for.
`confined_iff` says that it is exactly the check that is missing, in both servers:
the file a request leads to is `Confined` if and only if its line is `Safe`.

A path in which some `%` is not followed by two letters or digits is safe in a
sad way: the program stops at an `assert`.
-/

namespace UnixNetwork
namespace WebServer

open Bytes LexicalPath

/-! ## The check -/

/-- The path starts with a slash, plain or escaped. -/
def startsWithSlash : List UInt8 → Bool
  | [] => false
  | c :: rest =>
    if c = 37 then
      match rest with
      | x :: y :: _ =>
        match escape x y with
        | .error _ => false
        | .ok b => decide (b = slash)
      | _ => false
    else decide (c = slash)

/-- The pass of `LexicalPath.scan` over a path that is not decoded. -/
def scanRaw : List UInt8 → Seg → ℤ → Bool
  | [], seg, depth => decide (0 ≤ depth + seg.weight)
  | c :: rest, seg, depth =>
    if c = 37 then
      match rest with
      | x :: y :: rest =>
        match escape x y with
        | .error _ => false
        | .ok b =>
          if b = slash then
            decide (0 ≤ depth + seg.weight) && scanRaw rest .empty (depth + seg.weight)
          else scanRaw rest (seg.push b) depth
      | _ => false
    else if c = slash then
      decide (0 ≤ depth + seg.weight) && scanRaw rest .empty (depth + seg.weight)
    else scanRaw rest (seg.push c) depth

/-- **The missing check**, on the request line. -/
def Safe (line : List UInt8) : Prop :=
  ∀ raw, rawPath line = some raw →
    malformed raw = true ∨ startsWithSlash raw = false ∧ scanRaw raw .empty 0 = true

/-! ## The check and the decoder -/

theorem scanRaw_cons {c : UInt8} (hc : c ≠ 37) (rest : List UInt8) (seg : Seg) (depth : ℤ) :
    scanRaw (c :: rest) seg depth =
      if c = slash then
        decide (0 ≤ depth + seg.weight) && scanRaw rest .empty (depth + seg.weight)
      else scanRaw rest (seg.push c) depth := by
  rw [scanRaw.eq_def]
  exact if_neg hc

theorem startsWithSlash_iff {raw file : List UInt8} (h : Decodes raw file) :
    startsWithSlash raw = true ↔ file.head? = some slash := by
  cases h with
  | nil => simp [startsWithSlash]
  | plus _ =>
    rw [startsWithSlash.eq_def]
    simp [slash]
  | escape hesc _ => simp [startsWithSlash, hesc]
  | plain _ hc _ =>
    rw [startsWithSlash.eq_def]
    simp [hc]

/-- The two passes go together: an escape is one byte to both. -/
theorem scanRaw_eq {raw file : List UInt8} (h : Decodes raw file) (seg : Seg) (depth : ℤ) :
    scanRaw raw seg depth = scan file seg depth := by
  induction h generalizing seg depth with
  | nil => rfl
  | plus _ ih =>
    -- a plus is read as a space, and neither is part of `.` or `..`
    rw [scanRaw_cons (by decide), if_neg (by decide), scan, if_neg (by decide), ih]
    rfl
  | escape hesc _ ih =>
    rw [scanRaw, if_pos rfl, scan]
    simp only [hesc, ih]
  | plain _ hc _ ih =>
    rw [scanRaw_cons hc, scan]
    simp only [ih]

/-! ## Both servers -/

/-- On one request line, the check is right. -/
theorem parseRequest_confined_iff (line : List UInt8) :
    (∀ file, parseRequest line = .ok (some file) → Confined file) ↔ Safe line := by
  have hcurrent : Confined (ascii "./") := (scan_iff _).mpr (by decide)
  have hraw : ∀ raw decoded, urlDecode raw = .ok decoded →
      (Confined (if decoded = [] then ascii "./" else decoded) ↔
        startsWithSlash raw = false ∧ scanRaw raw .empty 0 = true) := by
    intro raw decoded hdec
    rw [urlDecode_eq_ok_iff] at hdec
    rw [scanRaw_eq hdec, ← Bool.not_eq_true, startsWithSlash_iff hdec]
    by_cases hnil : decoded = []
    · subst hnil
      rw [if_pos rfl]
      exact ⟨fun _ => by decide, fun _ => hcurrent⟩
    · rw [if_neg hnil]
      exact scan_iff decoded
  constructor
  · intro h raw hpath
    rw [or_iff_not_imp_left, malformed_iff]
    intro hok
    cases hdec : urlDecode raw with
    | error e => exact absurd ⟨e, hdec⟩ hok
    | ok decoded =>
      exact (hraw raw decoded hdec).mp
        (h _ ((parseRequest_eq_file_iff line _).mpr ⟨raw, hpath, decoded, hdec, rfl⟩))
  · intro h file hfile
    obtain ⟨raw, hpath, decoded, hdec, rfl⟩ := (parseRequest_eq_file_iff line _).mp hfile
    rcases h raw hpath with hbad | hsafe
    · obtain ⟨e, he⟩ := (malformed_iff raw).mp hbad
      cases he.symm.trans hdec
    · exact (hraw raw decoded hdec).mpr hsafe

/-- **When the servers stay below their directory.**  In each of them, every file
a request leads to is confined exactly if the request line is safe: for the epoll
server the line `Readline` stored, for the libevent server what it received into
its buffer, if that leaves room for the terminator. -/
theorem confined_iff (s : State) (fd : Fd) (input : List UInt8) :
    ((∀ file s', readClientRequests s fd = .ok (.file file, s') → Confined file) ↔
      ∀ line s', readRequest s fd = some (some line, s') → Safe line) ∧
    ((∀ file, readCb input = .ok (some file) → Confined file) ↔
      (input.length < bufferSize ∨ (0 : UInt8) ∈ input.take bufferSize →
        Safe (cstr (input.take bufferSize)))) := by
  constructor
  · constructor
    · intro h line s' hread
      refine (parseRequest_confined_iff line).mp fun file hfile => ?_
      exact h file s' ((readClientRequests_eq_file_iff s s' fd file).mpr ⟨line, hread, hfile⟩)
    · intro h file s' hcall
      obtain ⟨line, hread, hfile⟩ := (readClientRequests_eq_file_iff s s' fd file).mp hcall
      exact (parseRequest_confined_iff line).mpr (h line s' hread) file hfile
  · rw [readCb_eq]
    by_cases hterm : input.length < bufferSize ∨ (0 : UInt8) ∈ input.take bufferSize
    · rw [if_pos hterm, parseRequest_confined_iff]
      exact ⟨fun h _ => h, fun h => h hterm⟩
    · rw [if_neg hterm]
      exact ⟨fun _ h => absurd h hterm, fun _ _ h => by cases h⟩

/-- A request for something next to the directory, as one piece. -/
def climbing : State where
  static := MyRead.start
  input := fun _ => [.data (ascii "GET /../x HTTP/1.1\r\n\r\n") (by decide) (by decide), .eagain]

/-- Both servers look for `../x`. -/
theorem not_confined_climbing :
    (∃ s', readClientRequests climbing 5 = .ok (.file (ascii "../x"), s')) ∧
      readCb (ascii "GET /../x HTTP/1.1\r\n\r\n") = .ok (some (ascii "../x")) ∧
      ¬ Confined (ascii "../x") := by
  refine ⟨?_, by decide +kernel, ?_⟩
  · have h : (readClientRequests climbing 5).map Prod.fst = .ok (.file (ascii "../x")) := by
      decide +kernel
    exact exists_of_map_fst h
  · rw [scan_iff]
    decide +kernel

end WebServer
end UnixNetwork
