import Pricetime.Impl.Itch

/-!
# The ITCH readers

A reader answers with the messages it gave to its handler, in order, and its
result. `none` is a read outside the array, a difference of sizes that would
wrap, or a loop that runs out of fuel.
-/

namespace Pricetime

namespace Itch

inductive ReadStatus where
  | ok
  | truncatedPrefix
  | truncatedMessage
  | unknownType
  | lengthMismatch
  | zeroLength
  deriving DecidableEq, Repr

structure ReadResult where
  status : ReadStatus := .ok
  messages : Nat := 0
  offset : Nat := 0
  badType : UInt8 := ' '.toUInt8
  declaredLength : Nat := 0
  expectedLength : Nat := 0
  deriving DecidableEq, Repr

/-- `a - b` on sizes, `none` if it wraps. -/
def sizeSub (a b : Nat) : Option Nat := if b ≤ a then some (a - b) else none

/-- The `n` bytes from `i` on. -/
def slice (data : List UInt8) (i n : Nat) : Option (List UInt8) :=
  if i + n ≤ data.length then some ((data.drop i).take n) else none

/-- The loop of `for_each_framed_message` from offset `off` on. -/
def framedLoop (data : List UInt8) : Nat → Nat → ReadResult → Option (List (List UInt8) × ReadResult)
  | 0, _, _ => none
  | fuel + 1, off, r =>
    if off < data.length then do
      let left ← sizeSub data.length off
      if left < 2 then some ([], { r with status := .truncatedPrefix, offset := off })
      else do
        let len ← be16 data off
        if len = 0 then some ([], { r with status := .zeroLength, offset := off })
        else do
          let left ← sizeSub left 2
          if left < len then
            some ([], { r with status := .truncatedMessage, offset := off, declaredLength := len })
          else do
            let type ← data[off + 2]?
            let expected := messageLength type
            if expected ≠ 0 ∧ expected ≠ len then
              some ([], { r with
                status := .lengthMismatch, offset := off, badType := type
                declaredLength := len, expectedLength := expected })
            else do
              let msg ← slice data (off + 2) len
              let (msgs, r) ← framedLoop data fuel (off + (2 + len)) { r with messages := r.messages + 1 }
              some (msg :: msgs, r)
    else some ([], { r with offset := off })

def forEachFramedMessage (data : List UInt8) : Option (List (List UInt8) × ReadResult) :=
  framedLoop data (data.length + 1) 0 {}

/-- The loop of `for_each_raw_message` from offset `off` on. -/
def rawLoop (data : List UInt8) : Nat → Nat → ReadResult → Option (List (List UInt8) × ReadResult)
  | 0, _, _ => none
  | fuel + 1, off, r =>
    if off < data.length then do
      let type ← data[off]?
      let len := messageLength type
      if len = 0 then some ([], { r with status := .unknownType, offset := off, badType := type })
      else do
        let left ← sizeSub data.length off
        if left < len then
          some ([], { r with status := .truncatedMessage, offset := off, declaredLength := len })
        else do
          let msg ← slice data off len
          let (msgs, r) ← rawLoop data fuel (off + len) { r with messages := r.messages + 1 }
          some (msg :: msgs, r)
    else some ([], { r with offset := off })

def forEachRawMessage (data : List UInt8) : Option (List (List UInt8) × ReadResult) :=
  rawLoop data (data.length + 1) 0 {}

/-! ## Streamed reading -/

/-- Why a streamed read does not return: a refill that does not fit in the
buffer, or a loop that goes wrong or runs out of fuel. -/
inductive StreamFault where
  | overflow
  | stuck
  deriving DecidableEq, Repr

/-- The loop of `for_each_framed_stream`. `rest` is what the file has left,
`buf` the bytes in the buffer, whose first byte is byte `consumed` of the
file. -/
def streamLoop (chunkBytes : Nat) : Nat → List UInt8 → List UInt8 → Nat → ReadResult →
    Except StreamFault (List (List UInt8) × ReadResult)
  | 0, _, _, _, _ => .error .stuck
  | fuel + 1, rest, buf, consumed, total =>
    if ¬ buf.length + chunkBytes ≤ chunkBytes + 64 then .error .overflow
    else
      let got := rest.take chunkBytes
      let rest := rest.drop chunkBytes
      let atEof := decide (got.length < chunkBytes)
      let buf := buf ++ got
      if buf.length = 0 then .ok ([], total)
      else
        match forEachFramedMessage buf with
        | none => .error .stuck
        | some (msgs, r) =>
          let total := { total with messages := total.messages + r.messages }
          let again (buf : List UInt8) (consumed : Nat) (total : ReadResult) := do
            let (msgs', total) ← streamLoop chunkBytes fuel rest buf consumed total
            .ok (msgs ++ msgs', total)
          match r.status with
          | .ok =>
            let consumed := consumed + buf.length
            let total := { total with offset := consumed }
            if atEof then .ok (msgs, total) else again [] consumed total
          | .truncatedPrefix | .truncatedMessage =>
            if atEof then
              .ok (msgs, { total with
                status := r.status, offset := consumed + r.offset, declaredLength := r.declaredLength })
            else again (buf.drop r.offset) (consumed + r.offset) total
          | _ =>
            .ok (msgs, { total with
              status := r.status, offset := consumed + r.offset, badType := r.badType
              declaredLength := r.declaredLength, expectedLength := r.expectedLength })

/-- `none` is a file that cannot be opened. -/
def forEachFramedStream (file : Option (List UInt8)) (chunkBytes : Nat) :
    Except StreamFault (List (List UInt8) × ReadResult) :=
  match file with
  | none => .ok ([], { status := .truncatedPrefix })
  | some bytes => streamLoop chunkBytes (bytes.length + 2) bytes [] 0 {}

end Itch

end Pricetime
