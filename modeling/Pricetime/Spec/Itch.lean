import Pricetime.Impl.ItchReader

/-!
# What the readers accept

A framed file is a concatenation of frames, a raw one of messages of known
types. `FramedViolation` and `RawViolation` say what is wrong with the bytes
at which no further message starts.
-/

namespace Pricetime

namespace Spec

open Itch (ReadStatus messageLength)

/-- A message of at least one byte that fits its length prefix, and has the
length of its type if that is known. -/
structure WellFormed (msg : List UInt8) : Prop where
  nonempty : msg ≠ []
  fits : msg.length < 2 ^ 16
  length : ∀ type ∈ msg.head?, messageLength type ≠ 0 → msg.length = messageLength type

/-- A message behind its big-endian length. -/
def frame (msg : List UInt8) : List UInt8 :=
  (msg.length / 2 ^ 8).toUInt8 :: (msg.length % 2 ^ 8).toUInt8 :: msg

/-- The length that two bytes are. -/
def prefixLength (hi lo : UInt8) : Nat := hi.toNat * 2 ^ 8 + lo.toNat

inductive FramedViolation : List UInt8 → ReadStatus → Prop
  | done : FramedViolation [] .ok
  | truncatedPrefix (b : UInt8) : FramedViolation [b] .truncatedPrefix
  | zeroLength {hi lo : UInt8} {body : List UInt8} (h : prefixLength hi lo = 0) :
    FramedViolation (hi :: lo :: body) .zeroLength
  | truncatedMessage {hi lo : UInt8} {body : List UInt8} (h : prefixLength hi lo ≠ 0)
    (hlt : body.length < prefixLength hi lo) : FramedViolation (hi :: lo :: body) .truncatedMessage
  | lengthMismatch {hi lo type : UInt8} {body : List UInt8} (h : prefixLength hi lo ≠ 0)
    (hle : prefixLength hi lo ≤ (type :: body).length) (hknown : messageLength type ≠ 0)
    (hne : messageLength type ≠ prefixLength hi lo) :
    FramedViolation (hi :: lo :: type :: body) .lengthMismatch

/-- Frames, and then the first `n` bytes of one that is not complete. -/
def Unfinished (xs : List UInt8) (n : Nat) : Prop :=
  ∃ (msgs : List (List UInt8)) (hi lo : UInt8) (body : List UInt8), (∀ msg ∈ msgs, WellFormed msg) ∧
    xs = msgs.flatMap frame ++ hi :: lo :: body ∧ body.length < prefixLength hi lo ∧ n = body.length + 2

/-- A message of a known type and of the length of its type. -/
def RawWellFormed (msg : List UInt8) : Prop :=
  ∃ type ∈ msg.head?, messageLength type ≠ 0 ∧ msg.length = messageLength type

inductive RawViolation : List UInt8 → ReadStatus → Prop
  | done : RawViolation [] .ok
  | unknownType {type : UInt8} {body : List UInt8} (h : messageLength type = 0) :
    RawViolation (type :: body) .unknownType
  | truncatedMessage {type : UInt8} {body : List UInt8} (h : messageLength type ≠ 0)
    (hlt : (type :: body).length < messageLength type) : RawViolation (type :: body) .truncatedMessage

end Spec

end Pricetime
