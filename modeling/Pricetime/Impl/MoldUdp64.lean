import Pricetime.Impl.ItchReader
import Pricetime.Impl.ItchWriter

/-!
# MoldUDP64

A datagram is a header of 20 bytes and blocks, each a length of two bytes and
a message. `none` is an access out of range, or a difference of sizes that
would wrap.
-/

namespace Pricetime

namespace Mold

open Itch (sizeSub slice be be16)
open Itch.Writer (bytesBe)

def kHeaderSize : Nat := 20

def kHeartbeat : UInt16 := 0x0000

def kEndOfSession : UInt16 := 0xFFFF

structure Header where
  session : List UInt8 := []
  sequence : UInt64 := 0
  count : UInt16 := 0
  deriving DecidableEq, Repr

/-- A copy to offset `i` of an array. -/
def write (buf : List UInt8) (i : Nat) (bytes : List UInt8) : Option (List UInt8) :=
  if i + bytes.length ≤ buf.length then some (buf.take i ++ bytes ++ buf.drop (i + bytes.length)) else none

/-! ## Packing -/

def kBufSize : Nat := 1400

structure Packer where
  session : List UInt8
  buf : List UInt8 := List.replicate kBufSize 0
  len : Nat := kHeaderSize
  count : UInt16 := 0
  firstSeq : UInt64 := 0
  deriving DecidableEq, Repr

namespace Packer

/-- The session is cut or filled with blanks to ten bytes. -/
def new (session10 : List UInt8) : Packer :=
  { session := session10.take 10 ++ List.replicate (10 - session10.length) ' '.toUInt8 }

/-- The session of a packer that is not given one. -/
def defaultSession : List UInt8 := ['P', 'R', 'I', 'C', 'E', 'T', 'I', 'M', 'E', ' '].map Char.toUInt8

/-- `begin`. -/
def start (p : Packer) (firstSequence : UInt64) : Packer :=
  { p with len := kHeaderSize, count := 0, firstSeq := firstSequence }

/-- `add`, with its result. -/
def add (p : Packer) (msg : List UInt8) : Option (Bool × Packer) :=
  if p.len + 2 + msg.length > p.buf.length then some (false, p)
  else do
    let prefixed := [((msg.length >>> 8) &&& 0xFF).toUInt8, (msg.length &&& 0xFF).toUInt8] ++ msg
    let buf ← write p.buf p.len prefixed
    some (true, { p with buf, len := p.len + (2 + msg.length), count := p.count + 1 })

def writeHeader (p : Packer) (count : UInt16) : Option Packer := do
  let buf ← write p.buf 0 (p.session ++ bytesBe 8 p.firstSeq ++ bytesBe 2 count.toUInt64)
  some { p with buf }

/-- `seal`. -/
def close (p : Packer) : Option Packer := p.writeHeader p.count

def closeEndOfSession (p : Packer) (nextSequence : UInt64) : Option Packer :=
  { p with len := kHeaderSize, firstSeq := nextSequence }.writeHeader kEndOfSession

/-- `bytes()[0 .. size())`. -/
def bytes (p : Packer) : List UInt8 := p.buf.take p.len

end Packer

/-! ## Unpacking -/

/-- The loop of `unpack` from block `i` at offset `off` on, with `n` blocks to
go: its result and what the handler gets. -/
def unpackBlocks (pkt : List UInt8) (hdr : Header) : Nat → UInt16 → Nat → Option (Bool × List (UInt64 × List UInt8))
  | 0, _, off => some (off == pkt.length, [])
  | n + 1, i, off => do
    let left ← sizeSub pkt.length off
    if left < 2 then some (false, [])
    else do
      let len ← be16 pkt off
      let off := off + 2
      let left ← sizeSub pkt.length off
      if len = 0 ∨ left < len then some (false, [])
      else do
        let msg ← slice pkt off len
        let (ok, msgs) ← unpackBlocks pkt hdr n (i + 1) (off + len)
        some (ok, (hdr.sequence + i.toUInt64, msg) :: msgs)

structure Unpacked where
  ok : Bool
  msgs : List (UInt64 × List UInt8) := []
  header : Header := {}
  deriving DecidableEq, Repr

/-- `unpack` into a header `hdr`. -/
def unpack (pkt : List UInt8) (hdr : Header) : Option Unpacked :=
  if pkt.length < kHeaderSize then some { ok := false, header := hdr }
  else do
    let session ← slice pkt 0 10
    let sequence ← be 8 pkt 10
    let count ← be 2 pkt 18
    let header : Header := { session, sequence, count := count.toUInt16 }
    if header.count = kHeartbeat ∨ header.count = kEndOfSession then
      some { ok := pkt.length == kHeaderSize, header }
    else do
      let (ok, msgs) ← unpackBlocks pkt header header.count.toNat 0 kHeaderSize
      some { ok, msgs, header }

/-! ## Gaps -/

structure GapTracker where
  started : Bool := false
  next : UInt64 := 1
  totalMissed : UInt64 := 0
  deriving DecidableEq, Repr

namespace GapTracker

def onPacket (g : GapTracker) (hdr : Header) : UInt64 × GapTracker :=
  let missed := if g.started ∧ hdr.sequence > g.next then hdr.sequence - g.next else 0
  let g :=
    if !g.started ∨ hdr.sequence ≥ g.next then
      { g with
        started := true
        next :=
          if hdr.count ≠ kHeartbeat ∧ hdr.count ≠ kEndOfSession then hdr.sequence + hdr.count.toUInt64
          else if hdr.sequence > g.next then hdr.sequence else g.next }
    else g
  (missed, { g with totalMissed := g.totalMissed + missed })

def nextExpected (g : GapTracker) : UInt64 := g.next

end GapTracker

end Mold

end Pricetime
