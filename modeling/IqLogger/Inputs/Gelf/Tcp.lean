import IqLogger.Inputs.Gelf.Udp
import IqLogger.Lib.Frames

/-!
# The GELF input over TCP

A connection of `tcp::Server`. It waits until its buffer holds a NUL byte, hands
on what is in front of it as a record, drops both from the buffer, and waits
again; when the peer closes, what is left in the buffer is lost with the
connection. The bytes of a connection arrive in pieces of any size, and one
piece may complete several records or none.

The records a connection hands on are the NUL-terminated frames of its bytes,
however these arrive (`IqLogger.Gelf.Tcp.received_eq_frames`).
-/

namespace IqLogger

namespace Gelf

namespace Tcp

open List

/-- A `tcp_connection`: the bytes that have arrived and not been consumed, and
the data of the records it has enqueued. -/
structure TcpConnection where
  buffer : Bytes
  records : List Bytes
  deriving DecidableEq, Repr

/-- `do_read` and `handle_read`, as often as the buffer holds a NUL byte:
`async_read_until` reports the bytes up to and with it, `process` enqueues them
without it, and they are consumed. -/
def TcpConnection.handleRead (c : TcpConnection) : TcpConnection :=
  match _h : c.buffer.idxOf? 0 with
  | none => c
  | some i =>
    let bytesTransferred := i + 1
    TcpConnection.handleRead
      ⟨c.buffer.drop bytesTransferred, c.records ++ [c.buffer.take (bytesTransferred - 1)]⟩
  termination_by c.buffer.length
  decreasing_by
    obtain ⟨hi, -⟩ := idxOf?_eq_some_iff.mp _h
    rw [length_drop]
    omega

/-- More bytes of the connection arrive. -/
def TcpConnection.arrive (c : TcpConnection) (bytes : Bytes) : TcpConnection :=
  TcpConnection.handleRead { c with buffer := c.buffer ++ bytes }

/-- The records of a connection whose bytes arrive in the given pieces. -/
def received (pieces : List Bytes) : List Bytes :=
  (pieces.foldl TcpConnection.arrive ⟨[], []⟩).records

/-- **One round of reading** puts out the frames of the buffer and keeps its
unterminated tail. -/
theorem handleRead_eq (buffer : Bytes) (records : List Bytes) :
    TcpConnection.handleRead ⟨buffer, records⟩ =
      ⟨unterminated 0 buffer, records ++ frames 0 buffer⟩ := by
  induction hn : buffer.length using Nat.strong_induction_on generalizing buffer records with
  | _ n ih =>
    rw [TcpConnection.handleRead]
    split
    next h =>
      have hzero : (0 : UInt8) ∉ buffer := idxOf?_eq_none_iff.mp h
      rw [unterminated, frames, run_frameStep_of_notMem hzero]
      simp
    next i h =>
      obtain ⟨heq, hzero⟩ := append_cons_of_idxOf? h
      obtain ⟨hi, -⟩ : ∃ hi : i < buffer.length, _ := idxOf?_eq_some_iff.mp h
      have hlt : (buffer.drop (i + 1)).length < n := by
        rw [length_drop]
        omega
      have hrun := run_frameStep_append_cons hzero [] (buffer.drop (i + 1))
      rw [← heq] at hrun
      dsimp only
      rw [ih _ hlt _ _ rfl, unterminated, frames, unterminated, frames, hrun]
      simp

/-- **The records of a connection are the frames of its bytes**, whatever pieces
they arrive in. -/
theorem received_eq_frames (pieces : List Bytes) : received pieces = frames 0 pieces.flatten := by
  have hfold : pieces.foldl TcpConnection.arrive ⟨[], []⟩ =
      ⟨unterminated 0 pieces.flatten, frames 0 pieces.flatten⟩ := by
    induction pieces using List.reverseRecOn with
    | nil => rfl
    | append_singleton pieces piece ih =>
      rw [foldl_append, ih, flatten_append, flatten_singleton, frames_append, unterminated_append]
      exact handleRead_eq _ _
  rw [received, hfold]

end Tcp

end Gelf

end IqLogger
