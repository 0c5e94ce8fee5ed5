import Mathlib.Data.List.DropRight
import UnixNetwork.Bytes.Split

/-!
# Upgrade requests

What a client sends to open a WebSocket connection, as the parts it is made of: a
request line, headers, and an empty line.  A `Request` carries the proofs that its
parts can be told apart in its bytes: no line contains a line end, and no header
name a colon.  Everything else about names and values is left open, repeated names
and odd spacing included.

`lastText` is the reading of a header the handshake is about: of the headers with
exactly that name the last one, and of its value the part before the next colon,
without the white space around it.
-/

namespace UnixNetwork
namespace Upgrade

/-- The end of a line. -/
def crlf : List UInt8 := [13, 10]

/-- What ends the name of a header. -/
def colon : UInt8 := 58

/-- One header. -/
structure Header where
  name : List UInt8
  value : List UInt8
  colon_notMem : colon ∉ name
  crlf_free : ¬ crlf <:+: name ++ colon :: value

/-- The header as a line, without its end. -/
def Header.line (h : Header) : List UInt8 := h.name ++ colon :: h.value

/-- A request. -/
structure Request where
  requestLine : List UInt8
  headers : List Header
  crlf_free : ¬ crlf <:+: requestLine

namespace Request

/-- The lines before the empty one. -/
def lines (r : Request) : List (List UInt8) := r.requestLine :: r.headers.map Header.line

/-- The request as it is sent. -/
def bytes (r : Request) : List UInt8 := (r.lines.map (· ++ crlf)).flatten ++ crlf

end Request

/-- Space, tab, and the four line and page breaks. -/
def white (c : UInt8) : Bool := decide (c = 32 ∨ 9 ≤ c ∧ c ≤ 13)

/-- A string without the white space around it. -/
def strip (l : List UInt8) : List UInt8 := (l.dropWhile white).rdropWhile white

/-- The text of a header: its value up to the next colon, without the white space
around it. -/
def Header.text (h : Header) : List UInt8 := strip (h.value.takeWhile (· ≠ colon))

/-- The text of the last header of a name. -/
def Request.lastText (r : Request) (name : List UInt8) : Option (List UInt8) :=
  (r.headers.filter (·.name = name)).getLast?.map Header.text

/-! ## The lines in the bytes -/

theorem borderless_crlf : Split.Borderless crlf := by decide

theorem Request.crlf_free_of_mem_lines (r : Request) {l : List UInt8} (hl : l ∈ r.lines) :
    ¬ crlf <:+: l := by
  rcases List.mem_cons.mp hl with rfl | hl
  · exact r.crlf_free
  · obtain ⟨h, -, rfl⟩ := List.mem_map.mp hl
    exact h.crlf_free

/-- The bytes are the lines and two empty pieces, joined by line ends. -/
theorem Request.bytes_eq (r : Request) :
    r.bytes = List.intercalate crlf (r.lines ++ [[]] ++ [[]]) := by
  rw [Split.intercalate_concat_nil, List.map_append, List.flatten_append]
  simp [bytes]

end Upgrade
end UnixNetwork
