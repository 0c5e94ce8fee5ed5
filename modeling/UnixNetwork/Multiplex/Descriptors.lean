import Mathlib.Data.Finset.Card
import UnixNetwork.Bytes.Basic

/-!
# Descriptors and what servers do with them

What the servers that wait for many descriptors at once have in common: descriptors, the
results of `read`, the calls they make in one round of their loop, of which `reads` picks
out the reads, and tables of descriptors.
-/

namespace UnixNetwork
namespace Multiplex

/-- A file descriptor, an `int`. -/
abbrev Fd := ℤ

/-- `FD_SETSIZE`, the number of bits of an `fd_set`. -/
def fdSetSize : ℕ := 1024

/-- The `errno` of a call that a signal interrupted. -/
abbrev EINTR : ℕ := 4

/-- What `read` into a buffer of this size can give. -/
inductive ReadResult (size : ℕ) where
  | data (bytes : List UInt8) (ne_nil : bytes ≠ []) (length_le : bytes.length ≤ size)
  | eof
  /-- `-1`, and `errno`. -/
  | fail (errno : ℕ)

/-- A `sockaddr_in`: address and port. -/
abbrev Address := UInt32 × UInt16

/-- A call on a descriptor. -/
inductive Action where
  | read (fd : Fd)
  | write (fd : Fd) (bytes : List UInt8)
  | close (fd : Fd)
  | recvfrom (fd : Fd) (sender : Address)
  | sendto (fd : Fd) (bytes : List UInt8) (receiver : Address)
  deriving DecidableEq

/-- The descriptors that were read, in order. -/
def reads (log : List Action) : List Fd :=
  log.filterMap fun
    | .read fd => some fd
    | _ => none

theorem reads_append (log log' : List Action) : reads (log ++ log') = reads log ++ reads log' :=
  List.filterMap_append

/-- `toupper`, in the C locale. -/
def toUpper (c : UInt8) : UInt8 := if 97 ≤ c ∧ c ≤ 122 then c - 32 else c

/-- `string(buff)` of a buffer, given what lies behind it: the constructor looks for a NUL and
does not know where the buffer ends. -/
def stringOf (buff behind : List UInt8) : List UInt8 := Bytes.cstr (buff ++ behind)

/-- How the largest descriptor, or index, is kept. -/
theorem le_greater (a b : ℤ) :
    a ≤ (if a < b then b else a) ∧ b ≤ (if a < b then b else a) := by
  split <;> omega

/-! ## Tables of descriptors -/

/-- The descriptor in an entry of a table in which negative numbers mark the free ones. -/
def slotKey (fd : Fd) : Option Fd := if fd < 0 then none else some fd

theorem slotKey_of_nonneg {fd : Fd} (h : 0 ≤ fd) : slotKey fd = some fd := if_neg (not_lt.mpr h)

theorem slotKey_neg_one : slotKey (-1) = none := rfl

theorem slotKey_eq_none_iff {fd : Fd} : slotKey fd = none ↔ fd < 0 := by
  unfold slotKey
  split <;> simp [*]

theorem slotKey_eq_some_iff {fd fd' : Fd} : slotKey fd = some fd' ↔ fd = fd' ∧ 0 ≤ fd' := by
  rw [slotKey, Option.ite_none_left_eq_some, Option.some.injEq, not_lt]
  constructor
  · rintro ⟨h0, rfl⟩
    exact ⟨rfl, h0⟩
  · rintro ⟨rfl, h0⟩
    exact ⟨h0, rfl⟩

end Multiplex
end UnixNetwork
