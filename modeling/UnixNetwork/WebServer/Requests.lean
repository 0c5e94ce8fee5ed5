import UnixNetwork.Bytes.Split
import UnixNetwork.WebServer.Wrap

/-!
# From a request to a file name

What `webserver/epoll_webserver.cpp` and `webserver/event_webserver.cpp` do with a
request until they know which file it is about: read it, split it, and decode the
path.

Both have a copy of `split`, whose loop tests `pos < size` where
`websocket/do_string.h` tests for `npos`; `split_eq` says that on one letter it is
`List.splitOn` all the same.  Both share `UrlDecode`, and `Decodes` is the relation
it computes: proofs about what was decoded are by induction on it.

What stops the program on the way is a `Fault`: an index past the vector that
`split` returned, the exception of `substr`, a failing `assert`.

* `readClientRequests`: the epoll server, which reads a line with `Readline` and
  drops what follows.
* `readCb`: the libevent server, which takes what fits into 256 bytes.
-/

namespace UnixNetwork
namespace WebServer

open Bytes

/-- What stops the program. -/
inductive Fault where
  | outOfBounds
  | outOfRange
  | assertion
  | outOfFuel
  deriving DecidableEq

/-! ## `split` -/

/-- The loop of `split`. -/
def splitLoop (strs delim : List UInt8) : ℕ → ℕ → Option (List (List UInt8))
  | 0, _ => none
  | fuel + 1, i =>
    if i < strs.length then
      match Split.find strs delim i with
      | some pos =>
        if pos < strs.length then
          (splitLoop strs delim fuel (pos + delim.length)).map ((strs.drop i).take (pos - i) :: ·)
        else splitLoop strs delim fuel (i + 1)
      | none => splitLoop strs delim fuel (i + 1)
    else some []

/-- `split(str, delim)`. -/
def split (str delim : List UInt8) : Option (List (List UInt8)) :=
  if str = [] then some []
  else splitLoop (str ++ delim) delim ((str ++ delim).length + 1) 0

/-- The second test is never the one that decides. -/
theorem splitLoop_eq (strs delim : List UInt8) (fuel i : ℕ) :
    splitLoop strs delim fuel i = Split.splitLoop id strs delim fuel i := by
  induction fuel generalizing i with
  | zero => rfl
  | succ fuel ih =>
    rw [splitLoop, Split.splitLoop]
    by_cases hi : i < strs.length
    · rw [if_pos hi, if_pos hi]
      cases hfind : Split.find strs delim i with
      | none => exact ih (i + 1)
      | some pos =>
        dsimp only
        rw [if_pos (Split.find_lt hi hfind), ih]
        rfl
    · rw [if_neg hi, if_neg hi]

/-- **`split` on one letter.** -/
theorem split_eq (c : UInt8) {str : List UInt8} (h : str ≠ []) :
    split str [c] = some (str.splitOn c) := by
  have := Split.splitWith_singleton id c h
  rw [List.map_id, Split.splitWith, if_neg h] at this
  rw [split, if_neg h, splitLoop_eq]
  exact this

/-! ## `UrlDecode` -/

/-- `FromHex`, which takes all letters for digits. -/
def fromHex (x : UInt8) : Except Fault UInt8 :=
  if 65 ≤ x ∧ x ≤ 90 then .ok (x - 65 + 10)
  else if 97 ≤ x ∧ x ≤ 122 then .ok (x - 97 + 10)
  else if 48 ≤ x ∧ x ≤ 57 then .ok (x - 48)
  else .error .assertion

/-- The byte two characters behind a `%` stand for. -/
def escape (x y : UInt8) : Except Fault UInt8 :=
  match fromHex x with
  | .error e => .error e
  | .ok high =>
    match fromHex y with
    | .error e => .error e
    | .ok low => .ok (high * 16 + low)

/-- `UrlDecode`. -/
def urlDecode : List UInt8 → Except Fault (List UInt8)
  | [] => .ok []
  | c :: rest =>
    if c = 43 then (urlDecode rest).map (32 :: ·)
    else if c = 37 then
      match rest with
      | x :: y :: rest =>
        match escape x y with
        | .error e => .error e
        | .ok b => (urlDecode rest).map (b :: ·)
      | _ => .error .assertion
    else (urlDecode rest).map (c :: ·)

/-- What `UrlDecode` does, as a relation: each escape is replaced by its byte, each
plus sign by a space, and every other byte stays. -/
inductive Decodes : List UInt8 → List UInt8 → Prop
  | nil : Decodes [] []
  | plus {raw file : List UInt8} : Decodes raw file → Decodes (43 :: raw) (32 :: file)
  | escape {x y b : UInt8} {raw file : List UInt8} : escape x y = .ok b → Decodes raw file →
      Decodes (37 :: x :: y :: raw) (b :: file)
  | plain {c : UInt8} {raw file : List UInt8} : c ≠ 43 → c ≠ 37 → Decodes raw file →
      Decodes (c :: raw) (c :: file)

/-- One more byte in front of what is decoded. -/
theorem map_cons_eq_ok {x : Except Fault (List UInt8)} {b : UInt8} {file : List UInt8} :
    x.map (b :: ·) = .ok file ↔ ∃ t, x = .ok t ∧ file = b :: t := by
  cases x with
  | error e => simp [Except.map]
  | ok t => simp [Except.map, eq_comm]

/-- **`UrlDecode` decodes**, and nothing else comes out of it. -/
theorem urlDecode_eq_ok_iff {raw file : List UInt8} :
    urlDecode raw = .ok file ↔ Decodes raw file := by
  constructor
  · intro h
    fun_induction urlDecode raw generalizing file with
    | case1 =>
      cases h
      exact .nil
    | case2 rest ih =>
      obtain ⟨t, ht, rfl⟩ := map_cons_eq_ok.mp h
      exact .plus (ih ht)
    | case3 x y rest e hesc => cases h
    | case4 x y rest b hesc _ ih =>
      obtain ⟨t, ht, rfl⟩ := map_cons_eq_ok.mp h
      exact .escape hesc (ih ht)
    | case5 rest hshort => cases h
    | case6 c rest hplus hc ih =>
      obtain ⟨t, ht, rfl⟩ := map_cons_eq_ok.mp h
      exact .plain hplus hc (ih ht)
  · intro h
    induction h with
    | nil => rfl
    | plus _ ih =>
      rw [urlDecode.eq_def]
      exact map_cons_eq_ok.mpr ⟨_, ih, rfl⟩
    | escape hesc _ ih =>
      rw [urlDecode, if_neg (by decide), if_pos rfl, hesc]
      exact map_cons_eq_ok.mpr ⟨_, ih, rfl⟩
    | plain hplus hc _ ih =>
      rw [urlDecode.eq_def]
      dsimp only
      rw [if_neg hplus, if_neg hc]
      exact map_cons_eq_ok.mpr ⟨_, ih, rfl⟩

theorem escape_eq_error {x y : UInt8} {e : Fault} (h : escape x y = .error e) :
    e = .assertion := by
  have hhex : ∀ z e, fromHex z = .error e → e = .assertion := by
    intro z e hz
    unfold fromHex at hz
    split at hz
    · cases hz
    split at hz
    · cases hz
    split at hz
    · cases hz
    · exact (Except.error.inj hz).symm
  unfold escape at h
  split at h
  · rename_i e' hx
    exact Except.error.inj h ▸ hhex x e' hx
  · split at h
    · rename_i e' hy
      exact Except.error.inj h ▸ hhex y e' hy
    · cases h

/-- What stops `UrlDecode` is an assertion. -/
theorem urlDecode_eq_error {raw : List UInt8} {e : Fault} (h : urlDecode raw = .error e) :
    e = .assertion := by
  have hmap : ∀ (b : UInt8) (x : Except Fault (List UInt8)), x.map (b :: ·) = .error e →
      x = .error e := by
    intro b x hx
    cases x with
    | error e' => exact congrArg Except.error (Except.error.inj hx)
    | ok t => cases hx
  fun_induction urlDecode raw with
  | case1 => cases h
  | case2 rest ih => exact ih (hmap _ _ h)
  | case3 x y rest e' hesc => exact Except.error.inj h ▸ escape_eq_error hesc
  | case4 x y rest b hesc _ ih => exact ih (hmap _ _ h)
  | case5 rest hshort => exact (Except.error.inj h).symm
  | case6 c rest hplus hc ih => exact ih (hmap _ _ h)

theorem Decodes.eq_nil {raw : List UInt8} (h : Decodes raw []) : raw = [] := by
  cases h
  rfl

/-- A `%` is not a digit. -/
theorem ne_percent_of_escape {x y b : UInt8} (h : escape x y = .ok b) : x ≠ 37 ∧ y ≠ 37 := by
  have h37 : fromHex 37 = .error .assertion := by decide
  constructor
  · rintro rfl
    rw [escape, h37] at h
    cases h
  · rintro rfl
    rw [escape, h37] at h
    split at h <;> cases h

/-- Each escape that was decoded was three bytes and gave one. -/
theorem Decodes.length {raw file : List UInt8} (h : Decodes raw file) :
    file.length + 2 * raw.count 37 = raw.length := by
  induction h with
  | nil => rfl
  | plus _ ih =>
    rw [List.length_cons, List.length_cons, List.count_cons_of_ne (by decide)]
    omega
  | escape hesc _ ih =>
    obtain ⟨hx, hy⟩ := ne_percent_of_escape hesc
    rw [List.count_cons_self, List.count_cons_of_ne hx, List.count_cons_of_ne hy]
    simp only [List.length_cons]
    omega
  | plain _ hc _ ih =>
    rw [List.length_cons, List.length_cons, List.count_cons_of_ne hc]
    omega

/-- Some escape cannot be read. -/
def malformed : List UInt8 → Bool
  | [] => false
  | c :: rest =>
    if c = 37 then
      match rest with
      | x :: y :: rest =>
        match escape x y with
        | .error _ => true
        | .ok _ => malformed rest
      | _ => true
    else malformed rest

theorem malformed_cons {c : UInt8} (hc : c ≠ 37) (rest : List UInt8) :
    malformed (c :: rest) = malformed rest := by
  rw [malformed.eq_def]
  exact if_neg hc

theorem map_cons_eq_error {x : Except Fault (List UInt8)} {b : UInt8} :
    (∃ e, x.map (b :: ·) = .error e) ↔ ∃ e, x = .error e := by
  cases x <;> simp [Except.map]

/-- The decoder fails on the malformed paths. -/
theorem malformed_iff (raw : List UInt8) :
    malformed raw = true ↔ ∃ e, urlDecode raw = .error e := by
  fun_induction urlDecode raw with
  | case1 => simp [malformed]
  | case2 rest ih => rw [map_cons_eq_error, ← ih, malformed_cons (by decide)]
  | case3 x y rest e hesc => simp [malformed, hesc]
  | case4 x y rest b hesc _ ih => simp [map_cons_eq_error, ← ih, malformed, hesc]
  | case5 rest hshort => simp [malformed]
  | case6 c rest _ hc ih => rw [map_cons_eq_error, ← ih, malformed_cons hc]

/-! ## The request line -/

/-- `tolower`, in the C locale. -/
def toLower (c : UInt8) : UInt8 := if 65 ≤ c ∧ c ≤ 90 then c + 32 else c

/-- `string_file`, from the path of a request. -/
def stringFile (path : List UInt8) : Except Fault (List UInt8) :=
  if path.length < 1 then .error .outOfRange
  else
    match urlDecode (path.drop 1) with
    | .error e => .error e
    | .ok file => .ok (if file = [] then ascii "./" else file)

/-- What the epoll server makes of `request_head1`: the file of a `GET` request, or
nothing for another method. -/
def parseRequest (requestHead1 : List UInt8) : Except Fault (Option (List UInt8)) :=
  match split requestHead1 (ascii " ") with
  | none => .error .outOfFuel
  | some (method :: path :: _httpVersion :: _) =>
    if method.map toLower = ascii "get" then (stringFile path).map some else .ok none
  | some _ => .error .outOfBounds

/-- The path of a request line as it was sent, without its first character, if it
is the line of a `GET` request. -/
def rawPath (line : List UInt8) : Option (List UInt8) :=
  match line.splitOn 32 with
  | method :: (_ :: raw) :: _ :: _ => if method.map toLower = ascii "get" then some raw else none
  | _ => none

/-- `string_file` of a path that has a first character. -/
theorem stringFile_cons (c : UInt8) (raw file : List UInt8) :
    stringFile (c :: raw) = .ok file ↔
      ∃ decoded, urlDecode raw = .ok decoded ∧
        file = if decoded = [] then ascii "./" else decoded := by
  rw [stringFile, if_neg (by simp), List.drop_succ_cons, List.drop_zero]
  cases urlDecode raw with
  | error e => simp
  | ok decoded => simp [eq_comm]

/-- The path of a request is not where an index goes wrong. -/
theorem stringFile_ne_outOfBounds (path : List UInt8) : stringFile path ≠ .error .outOfBounds := by
  unfold stringFile
  split
  · simp
  · split
    · rename_i e hdec
      rw [urlDecode_eq_error hdec]
      simp
    · simp

/-- Only the method and the path of a line matter, if something stands behind them. -/
theorem parseRequest_get {path : List UInt8} (h : (32 : UInt8) ∉ path) (t : List UInt8) :
    parseRequest (ascii "GET " ++ (path ++ 32 :: t)) = (stringFile path).map some := by
  have hspace : ascii " " = [32] := by decide
  have hget : ascii "GET " ++ (path ++ 32 :: t) = ascii "GET" ++ 32 :: (path ++ 32 :: t) := rfl
  have hlower : (ascii "GET").map toLower = ascii "get" := by decide
  obtain ⟨version, rest, hrest⟩ := List.exists_cons_of_ne_nil (List.splitOn_ne_nil 32 t)
  rw [parseRequest, hspace, split_eq 32 (by simp [hget]), hget,
    List.splitOn_append_cons_self_of_not_mem (by decide),
    List.splitOn_append_cons_self_of_not_mem h, hrest]
  exact if_pos hlower

/-- The file a request line leads to, by its raw path. -/
theorem parseRequest_eq_file_iff (line file : List UInt8) :
    parseRequest line = .ok (some file) ↔
      ∃ raw, rawPath line = some raw ∧ ∃ decoded, urlDecode raw = .ok decoded ∧
        file = if decoded = [] then ascii "./" else decoded := by
  by_cases hline : line = []
  · subst hline
    simp [parseRequest, split, rawPath]
  · have hspace : ascii " " = [32] := by decide
    rw [parseRequest, rawPath, hspace, split_eq 32 hline]
    match line.splitOn 32 with
    | [] => simp
    | [_] => simp
    | [_, _] => simp
    | method :: [] :: version :: rest =>
      dsimp only
      split <;> simp [stringFile, Except.map]
    | method :: (c :: raw) :: version :: rest =>
      dsimp only
      by_cases hget : method.map toLower = ascii "get"
      · rw [if_pos hget, if_pos hget]
        have hmap : (stringFile (c :: raw)).map some = .ok (some file) ↔
            stringFile (c :: raw) = .ok file := by
          cases stringFile (c :: raw) <;> simp [Except.map]
        rw [hmap, stringFile_cons]
        simp
      · rw [if_neg hget, if_neg hget]
        simp

/-! ## The epoll server -/

/-- `ReadBufferSize`. -/
def readBufferSize : ℕ := 1500

/-- What `read_client_requests` does with a descriptor. -/
inductive Outcome where
  | closed
  | ignored
  | file (stringFile : List UInt8)
  deriving DecidableEq

/-- The loop that reads the other lines and throws them away. -/
def drain (fd : Fd) : ℕ → State → Option State
  | 0, _ => none
  | fuel + 1, s =>
    if 0 < (readline s fd readBufferSize).1.ret then
      drain fd fuel (readline s fd readBufferSize).2
    else some (readline s fd readBufferSize).2

/-- The first half of `read_client_requests`: `request_head1`, unless the
descriptor is closed instead. -/
def readRequest (s : State) (fd : Fd) : Option (Option (List UInt8) × State) :=
  let line := (readline s fd readBufferSize).1
  let s := (readline s fd readBufferSize).2
  if line.ret < 0 then some (none, s)
  else if line.ret = 0 then some (none, s)
  else
    (drain fd (available s fd + 1) s).map fun s =>
      (some (cstr (padTo readBufferSize line.stored)), s)

/-- `read_client_requests`, up to the file it sends. -/
def readClientRequests (s : State) (fd : Fd) : Except Fault (Outcome × State) :=
  match readRequest s fd with
  | none => .error .outOfFuel
  | some (none, s) => .ok (.closed, s)
  | some (some requestHead1, s) =>
    match parseRequest requestHead1 with
    | .error e => .error e
    | .ok none => .ok (.ignored, s)
    | .ok (some file) => .ok (.file file, s)

/-- A call whose outcome is known has left some state. -/
theorem exists_of_map_fst {ε α β : Type*} {x : Except ε (α × β)} {a : α}
    (h : x.map Prod.fst = .ok a) : ∃ b, x = .ok (a, b) := by
  cases x with
  | error e => cases h
  | ok r => exact ⟨r.2, congrArg (fun a => Except.ok (a, r.2)) (Except.ok.inj h)⟩

/-- A call gets to a file through `parseRequest`. -/
theorem readClientRequests_eq_file_iff (s s' : State) (fd : Fd) (file : List UInt8) :
    readClientRequests s fd = .ok (.file file, s') ↔
      ∃ line, readRequest s fd = some (some line, s') ∧ parseRequest line = .ok (some file) := by
  rw [readClientRequests]
  match readRequest s fd with
  | none => simp
  | some (none, s₁) => simp
  | some (some line, s₁) =>
    have hline : (∃ line', some (some line, s₁) = some (some line', s') ∧
        parseRequest line' = .ok (some file)) ↔
        s₁ = s' ∧ parseRequest line = .ok (some file) := by
      constructor
      · rintro ⟨line', hsome, hparse⟩
        cases hsome
        exact ⟨rfl, hparse⟩
      · rintro ⟨rfl, hparse⟩
        exact ⟨line, rfl, hparse⟩
    rw [hline]
    dsimp only
    rcases parseRequest line with e | _ | file'
    · simp
    · simp
    · simp [and_comm]

/-! ## The libevent server -/

namespace EventWebserver

/-- `split` of the libevent server, which is the same text. -/
def split (str delim : List UInt8) : Option (List (List UInt8)) := WebServer.split str delim

/-- What the libevent server makes of `request_head1`. -/
def parseRequest (requestHead1 : List UInt8) : Except Fault (Option (List UInt8)) :=
  match split requestHead1 (ascii " ") with
  | none => .error .outOfFuel
  | some (method :: path :: _httpVersion :: _) =>
    if method.map toLower = ascii "get" then (stringFile path).map some else .ok none
  | some _ => .error .outOfBounds

/-- It is what the epoll server makes of it. -/
theorem parseRequest_eq (requestHead1 : List UInt8) :
    parseRequest requestHead1 = WebServer.parseRequest requestHead1 := rfl

end EventWebserver

/-- The size of `buffer` in `read_cb`. -/
def bufferSize : ℕ := 256

/-- `read_cb`, on what the connection has buffered.  A chunk that fills `buffer`
leaves no terminator in it. -/
def readCb (input : List UInt8) : Except Fault (Option (List UInt8)) :=
  let buffer := padTo bufferSize (input.take bufferSize)
  if (0 : UInt8) ∈ buffer then EventWebserver.parseRequest (cstr buffer) else .error .outOfBounds

/-- `read_cb`, without the padding. -/
theorem readCb_eq (input : List UInt8) :
    readCb input =
      if input.length < bufferSize ∨ (0 : UInt8) ∈ input.take bufferSize then
        parseRequest (cstr (input.take bufferSize))
      else .error .outOfBounds := by
  rw [readCb, EventWebserver.parseRequest_eq, cstr_padTo_eq]
  simp only [zero_mem_padTo_take]

end WebServer
end UnixNetwork
