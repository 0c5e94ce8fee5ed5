import UnixNetwork.Bytes.Block
import UnixNetwork.Multiplex.Descriptors

/-!
# The edge-triggered echo servers

The read loops of `epoll_study/epoll_server_edge_triggered.cpp` and of
`epoll_study/epoll_server_edge_triggered_thread_pool.cpp`.  In the second one the body is the
function `thread_read_write`, which `main` has done by the pool, one call at a time; but for the
size of the buffer it is the same.

`buffer` is an array on the stack that is declared anew in each round, so that it holds
anything before the `read`.  What it holds is part of a `Stack`, with what lies behind it, since
`string str(buffer)` looks for a zero byte and does not know where the buffer ends.

`edge_triggered_echo_iff` says when the replies are the chunks that were read: the chunk must
have no zero byte, and one must happen to lie right behind it.
-/

namespace UnixNetwork
namespace Multiplex
namespace EdgeTriggered

open Bytes

/-- The `errno` of a `read` that would block. -/
abbrev EAGAIN : ℕ := 11

/-- The buffer before a `read`, and the memory behind it. -/
structure Stack (size : ℕ) where
  buffer : Block UInt8 size
  behind : List UInt8

variable {size : ℕ}

/-! ## The code -/

/-- `string(buffer)`, from the memory that starts there.  It has to end somewhere in it. -/
def string (memory : List UInt8) : Option (List UInt8) :=
  if (0 : UInt8) ∈ memory then some (cstr memory) else none

/-- The memory from the buffer on, behind a `read`. -/
def Stack.received (s : Stack size) (bytes : List UInt8) : List UInt8 :=
  overwrite s.buffer.toList 0 bytes ++ s.behind

/-- The reply to a string. -/
def reply (str : List UInt8) : List UInt8 := ascii "server data : " ++ str

/-- The body of the loop: the calls it makes, and whether the loop goes on.  Its `epoll_ctl`
comes behind the `close` and fails. -/
def readWrite (fd : Fd) (s : Stack size) : ReadResult size → Option (Bool × List Action)
  | .fail errno =>
    if errno = EAGAIN then some (false, [.read fd]) else some (false, [.read fd, .close fd])
  | .eof => some (false, [.read fd, .close fd])
  | .data bytes _ _ =>
    (string (s.received bytes)).map fun str => (true, [.read fd, .write fd (reply str)])

/-- The loop around a body, on what its `read`s find and give. -/
def readLoop (body : Stack size → ReadResult size → Option (Bool × List Action)) :
    List (Stack size × ReadResult size) → Option (List Action)
  | [] => some []
  | (s, result) :: rounds =>
    match body s result with
    | none => none
    | some (false, log) => some log
    | some (true, log) => (readLoop body rounds).map (log ++ ·)

/-- `thread_read_write`, with its `ReadBufferSize` of 4. -/
def threadReadWrite (fd : Fd) (s : Stack 4) (result : ReadResult 4) :
    Option (Bool × List Action) :=
  readWrite fd s result

/-- `while (true)` around `pool->commit(thread_read_write, ...).get()`. -/
def threadLoop (fd : Fd) (rounds : List (Stack 4 × ReadResult 4)) : Option (List Action) :=
  readLoop (threadReadWrite fd) rounds

/-- The loop in `main`, with its `ReadBufferSize` of 1500. -/
def mainLoop (fd : Fd) (rounds : List (Stack 1500 × ReadResult 1500)) : Option (List Action) :=
  readLoop (readWrite fd) rounds

/-! ## When the replies are right -/

/-- A chunk that `read` gave, and what the buffer held before. -/
structure Chunk (size : ℕ) where
  stack : Stack size
  bytes : List UInt8
  ne_nil : bytes ≠ []
  length_le : bytes.length ≤ size

namespace Chunk

/-- The round of a chunk. -/
def round (c : Chunk size) : Stack size × ReadResult size :=
  (c.stack, .data c.bytes c.ne_nil c.length_le)

/-- The memory right behind a chunk: what the `read` left of the buffer, and what follows. -/
def rest (c : Chunk size) : List UInt8 :=
  c.stack.buffer.toList.drop c.bytes.length ++ c.stack.behind

/-- The chunk reads as a C string. -/
def Terminated (c : Chunk size) : Prop := (0 : UInt8) ∉ c.bytes ∧ c.rest.head? = some 0

theorem received_eq (c : Chunk size) : c.stack.received c.bytes = c.bytes ++ c.rest := by
  rw [Stack.received, overwrite_zero, rest, List.append_assoc]

end Chunk

/-- A string is what comes before a zero byte, if there is none in it. -/
theorem string_append_iff (l t : List UInt8) :
    string (l ++ t) = some l ↔ (0 : UInt8) ∉ l ∧ t.head? = some 0 := by
  rw [string, Option.ite_none_right_eq_some, Option.some.injEq]
  constructor
  · rintro ⟨hmem, hl⟩
    have h0 : (0 : UInt8) ∉ l := hl ▸ zero_notMem_cstr (l ++ t)
    refine ⟨h0, ?_⟩
    rw [cstr_append h0, List.append_right_eq_self] at hl
    cases t with
    | nil =>
      rw [List.append_nil] at hmem
      exact absurd hmem h0
    | cons c t =>
      by_contra hc
      rw [cstr, List.takeWhile_cons_of_pos (by simpa using hc)] at hl
      cases hl
  · rintro ⟨h0, hhead⟩
    cases t with
    | nil => cases hhead
    | cons c t =>
      obtain rfl : c = 0 := Option.some.inj hhead
      exact ⟨by simp, cstr_append_zero h0 t⟩

/-- The calls for a chunk, as they should be. -/
def Chunk.echo (fd : Fd) (c : Chunk size) : List Action :=
  [.read fd, .write fd (reply c.bytes)]

/-- A round with a chunk. -/
theorem readLoop_cons (fd : Fd) (c : Chunk size) (rounds : List (Stack size × ReadResult size)) :
    readLoop (readWrite fd) (c.round :: rounds) =
      (string (c.bytes ++ c.rest)).bind fun str =>
        (readLoop (readWrite fd) rounds).map ([.read fd, .write fd (reply str)] ++ ·) := by
  rw [readLoop, Chunk.round, ← c.received_eq]
  simp only [readWrite]
  cases string (c.stack.received c.bytes) <;> rfl

/-- **When a sequence of chunks is echoed.** -/
theorem readLoop_echo_iff (fd : Fd) (chunks : List (Chunk size)) :
    readLoop (readWrite fd) (chunks.map Chunk.round) = some (chunks.flatMap (Chunk.echo fd)) ↔
      ∀ c ∈ chunks, c.Terminated := by
  induction chunks with
  | nil => simp [readLoop]
  | cons c chunks ih =>
    rw [List.map_cons, readLoop_cons, List.forall_mem_cons, ← ih, List.flatMap_cons, Chunk.Terminated,
      ← string_append_iff]
    constructor
    · intro h
      obtain ⟨str, hstr, h⟩ := Option.bind_eq_some_iff.mp h
      obtain ⟨log, hlog, h⟩ := Option.map_eq_some_iff.mp h
      obtain ⟨hhead, htail⟩ := List.append_inj h rfl
      have hreply : str = c.bytes := by
        have := (Action.write.inj (List.cons.inj (List.cons.inj hhead).2).1).2
        exact List.append_cancel_left this
      exact ⟨hreply ▸ hstr, htail ▸ hlog⟩
    · rintro ⟨hstr, hrest⟩
      rw [hstr, hrest]
      rfl

/-- **When the edge-triggered servers echo what they read**: both of them, chunk by chunk. -/
theorem edge_triggered_echo_iff (fd : Fd) (chunks : List (Chunk 4)) (chunks' : List (Chunk 1500)) :
    (threadLoop fd (chunks.map Chunk.round) = some (chunks.flatMap (Chunk.echo fd)) ↔
      ∀ c ∈ chunks, c.Terminated) ∧
    (mainLoop fd (chunks'.map Chunk.round) = some (chunks'.flatMap (Chunk.echo fd)) ↔
      ∀ c ∈ chunks', c.Terminated) :=
  ⟨readLoop_echo_iff fd chunks, readLoop_echo_iff fd chunks'⟩

/-- Two bytes, where an earlier call left four: the reply has two of them behind the chunk. -/
theorem thread_echoes_leftovers :
    let c : Chunk 4 := ⟨⟨⟨ascii "wxyz", rfl⟩, [0]⟩, ascii "ab", by decide, by decide⟩
    threadLoop 5 [c.round] = some [.read 5, .write 5 (ascii "server data : abyz")] ∧
      threadLoop 5 [c.round] ≠ some (Chunk.echo 5 c) := by
  intro c
  have h : threadLoop 5 [c.round] = some [.read 5, .write 5 (ascii "server data : abyz")] := rfl
  refine ⟨h, ?_⟩
  rw [h]
  decide

end EdgeTriggered
end Multiplex
end UnixNetwork
