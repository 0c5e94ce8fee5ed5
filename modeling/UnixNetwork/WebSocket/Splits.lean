import UnixNetwork.WebServer.Requests
import UnixNetwork.WebSocket.DoString

/-!
# `split` undoes joining

`split` of `websocket/do_string.h`, with its copies in `webserver/epoll_webserver.cpp` and
`webserver/event_webserver.cpp`.

The loops count in an `int`, to which they assign a `size_t`.  `splitLoopInt` is the loop with
both conversions, and `splitLoopInt_eq` says that they make no difference as long as the string
with the delimiter behind it is shorter than `2 ^ 31`: the index never passes its end.

`split_inverts_join` is about delimiters that are `Split.Borderless`, as those of the callers
are.
-/

namespace UnixNetwork

open Bytes

namespace WebSocket
namespace DoString

/-! ## The index -/

/-- An `int` as a `size_t`. -/
def toSize (i : ℤ) : ℕ := (i % 2 ^ 64).toNat

theorem toSize_of_lt {n : ℕ} (h : n < 2 ^ 31) : toSize n = n := by
  unfold toSize
  omega

/-- The loop of `split`, with its index as it is. -/
def splitLoopInt {β : Type} (push : List UInt8 → β) (strs delim : List UInt8) :
    ℕ → ℤ → Option (List β)
  | 0, _ => none
  | fuel + 1, i =>
    if toSize i < strs.length then
      match Split.find strs delim (toSize i) with
      | some pos =>
        let s := (strs.drop (toSize i)).take (pos - toSize i)
        (splitLoopInt push strs delim fuel (toInt (toInt (pos + delim.length - 1) + 1))).map
          (push s :: ·)
      | none => splitLoopInt push strs delim fuel (toInt (i + 1))
    else some []

/-- **The index is the position**, for strings that an `int` can count. -/
theorem splitLoopInt_eq {β : Type} (push : List UInt8 → β) {strs delim : List UInt8}
    (hne : delim ≠ []) (hlen : strs.length < 2 ^ 31) (fuel : ℕ) {i : ℕ} (hi : i ≤ strs.length) :
    splitLoopInt push strs delim fuel i = Split.splitLoop push strs delim fuel i := by
  have hpos := List.length_pos_iff.mpr hne
  induction fuel generalizing i with
  | zero => rfl
  | succ fuel ih =>
    rw [splitLoopInt, Split.splitLoop, toSize_of_lt (hi.trans_lt hlen)]
    by_cases hlt : i < strs.length
    · rw [if_pos hlt, if_pos hlt]
      cases hfind : Split.find strs delim i with
      | none =>
        have hnext : toInt ((i : ℤ) + 1) = (i + 1 : ℕ) := by
          rw [← toInt_of_lt (n := i + 1) (by omega)]
          rfl
        simp only [hnext]
        exact ih hlt
      | some pos =>
        have hend := Split.find_add_le hi hfind
        have hlast : ((pos : ℤ) + delim.length - 1) = (pos + delim.length - 1 : ℕ) := by omega
        have hnext : toInt (toInt ((pos : ℤ) + delim.length - 1) + 1) =
            (pos + delim.length : ℕ) := by
          rw [hlast, toInt_of_lt (by omega)]
          have hback : ((pos + delim.length - 1 : ℕ) : ℤ) + 1 = (pos + delim.length : ℕ) := by omega
          rw [hback, toInt_of_lt (by omega)]
        simp only [hnext]
        rw [ih hend]
    · rw [if_neg hlt, if_neg hlt]

/-- `split`, with its index as it is. -/
def splitInt (str delim : List UInt8) (isTrim : Bool) : Option (List (List UInt8)) :=
  if str = [] then some []
  else
    splitLoopInt (fun s => if isTrim then trim s else s) (str ++ delim) delim
      ((str ++ delim).length + 1) 0

theorem splitInt_eq {str delim : List UInt8} (hne : delim ≠ [])
    (hlen : str.length + delim.length < 2 ^ 31) (isTrim : Bool) :
    splitInt str delim isTrim = split str delim isTrim := by
  unfold splitInt split Split.splitWith
  split
  · rfl
  · rw [← List.length_append] at hlen
    exact splitLoopInt_eq _ hne hlen _ (Nat.zero_le _)

/-! ## The copies -/

/-- The copies of the web servers are the same function. -/
theorem webServer_split_eq (str delim : List UInt8) :
    WebServer.split str delim = split str delim false := by
  unfold WebServer.split split Split.splitWith
  rw [WebServer.splitLoop_eq]
  rfl

/-- **`split` undoes joining.**  There is one way to cut a string at a delimiter, and `split`
finds it, in all its copies; with `is_trim` the pieces are trimmed. -/
theorem split_inverts_join (str delim : List UInt8) (hstr : str ≠ []) (hne : delim ≠ [])
    (hd : Split.Borderless delim) (hlen : str.length + delim.length < 2 ^ 31) :
    ∃ ps : List (List UInt8),
      (ps ≠ [] ∧ (∀ p ∈ ps, ¬ delim <:+: p) ∧ List.intercalate delim ps = str) ∧
      (∀ qs : List (List UInt8), qs ≠ [] → (∀ q ∈ qs, ¬ delim <:+: q) →
        List.intercalate delim qs = str → qs = ps) ∧
      splitInt str delim false = some ps ∧
      split str delim false = some ps ∧
      WebServer.split str delim = some ps ∧
      WebServer.EventWebserver.split str delim = some ps ∧
      splitInt str delim true = some (ps.map trim) := by
  obtain ⟨ps, hps, hfree, rfl⟩ := Split.exists_pieces hne str
  have hsplit : split (List.intercalate delim ps) delim false = some ps := by
    have := Split.splitWith_intercalate (fun s : List UInt8 => s) hd hne hfree hstr
    rwa [List.map_id'] at this
  have htrim : split (List.intercalate delim ps) delim true = some (ps.map trim) :=
    Split.splitWith_intercalate trim hd hne hfree hstr
  refine ⟨ps, ⟨hps, hfree, rfl⟩, fun qs _ hqs hjoin => ?_, ?_, hsplit, ?_, ?_, ?_⟩
  · exact Split.pieces_unique hd hne hqs hfree hjoin (hjoin ▸ hstr)
  · rw [splitInt_eq hne hlen, hsplit]
  · rw [webServer_split_eq, hsplit]
  · rw [WebServer.EventWebserver.split, webServer_split_eq, hsplit]
  · rw [splitInt_eq hne hlen, htrim]

/-- A request line and a header, and an empty line behind them. -/
theorem split_inverts_join_crlf :
    ∃ ps : List (List UInt8),
      (ps ≠ [] ∧ (∀ p ∈ ps, ¬ ascii "\r\n" <:+: p) ∧
        List.intercalate (ascii "\r\n") ps = ascii "GET / HTTP/1.1\r\nHost: a\r\n\r\n") ∧
      splitInt (ascii "GET / HTTP/1.1\r\nHost: a\r\n\r\n") (ascii "\r\n") false = some ps := by
  obtain ⟨ps, hps, -, hsplit, -⟩ := split_inverts_join
    (ascii "GET / HTTP/1.1\r\nHost: a\r\n\r\n") (ascii "\r\n") (by decide) (by decide) (by decide)
    (by decide)
  exact ⟨ps, hps, hsplit⟩

end DoString
end WebSocket
end UnixNetwork
