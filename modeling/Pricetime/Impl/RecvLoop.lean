import Pricetime.Impl.ItchReader
import Pricetime.Impl.Wire

/-!
# The receive loop

`RecvLoop` is what `recv_loop` keeps from one call of `recv_some` to the next,
with `held` for its `have`; `step` is a turn of its loop, given the bytes that
`recv_some` writes. `none` is a write or read outside the buffer, a difference
of sizes that would wrap, or a loop that does not end.
-/

namespace Pricetime

open Wire (Request kMessageSize)
open Itch (sizeSub)

/-- `sizeof(buf)`. -/
def kRecvBytes : Nat := kMessageSize * 256

structure RecvBuffer where
  bytes : List UInt8
  size : bytes.length = kRecvBytes
  deriving DecidableEq, Repr

namespace RecvBuffer

def write (buf : RecvBuffer) (i : Nat) (data : List UInt8) : Option RecvBuffer :=
  if fits : i + data.length ≤ kRecvBytes then
    some {
      bytes := buf.bytes.take i ++ data ++ buf.bytes.drop (i + data.length)
      size := by
        have := buf.size
        simp only [List.length_append, List.length_take, List.length_drop]
        omega }
  else none

/-- `std::memmove(buf, buf + off, n)`. -/
def moveDown (buf : RecvBuffer) (off n : Nat) : Option RecvBuffer :=
  if off + n ≤ kRecvBytes then buf.write 0 ((buf.bytes.drop off).take n) else none

end RecvBuffer

/-- `alive` is false too once a `break` has left the loop. `qIn` is what has
been pushed. -/
structure RecvLoop where
  buf : RecvBuffer
  held : Nat := 0
  alive : Bool := true
  qIn : List Request := []
  desyncs : UInt64 := 0
  deriving DecidableEq, Repr

namespace RecvLoop

/-- The space that `recv_some` is offered. -/
def space (s : RecvLoop) : Option Nat := sizeSub kRecvBytes s.held

/-- The inner loop from offset `off` on: `off` after it, and the state. -/
def takeMessages : Nat → Nat → RecvLoop → Option (Nat × RecvLoop)
  | 0, _, _ => none
  | fuel + 1, off, s => do
    let left ← sizeSub s.held off
    if left ≥ kMessageSize then
      match ← Request.decode (s.buf.bytes.drop off) with
      | none => some (off, { s with desyncs := s.desyncs + 1, alive := false })
      | some req => takeMessages fuel (off + kMessageSize) { s with qIn := s.qIn ++ [req] }
    else some (off, s)

/-- A turn that `recv_some` has answered with the bytes of `piece`. -/
def turn (s : RecvLoop) (piece : List UInt8) : Option RecvLoop := do
  let buf ← s.buf.write s.held piece
  let s := { s with buf, held := s.held + piece.length }
  let (off, s) ← takeMessages (s.held + 1) 0 s
  let left ← sizeSub s.held off
  let buf ← if off > 0 ∧ off < s.held then s.buf.moveDown off left else some s.buf
  some { s with buf, held := left }

/-- No bytes are a disconnect, a shutdown or an error. -/
def step (s : RecvLoop) (piece : List UInt8) : Option (Unit × RecvLoop) :=
  if ¬ s.alive then some ((), s)
  else if piece = [] then some ((), { s with alive := false })
  else do
    let s ← s.turn piece
    some ((), s)

end RecvLoop

end Pricetime
