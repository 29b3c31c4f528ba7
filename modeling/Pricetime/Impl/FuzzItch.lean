import Pricetime.Impl.ItchReader
import Pricetime.Impl.Replayer

/-!
# The fuzz target

`fuzz_one` reads arbitrary bytes as a framed file and as a raw payload,
decodes every message it is given, and rebuilds the books of a short file,
whose structure it checks. `none` is a read outside an array, a null pointer
that is followed, or a step of a book that goes wrong.
-/

namespace Pricetime

namespace Fuzz

open Itch

def kReplayByteLimit : Nat := 1024

/-- Every field of a message, folded into one word. A message of any other
type is not read into. `char` is signed. -/
def decodeMessage (msg : List UInt8) : Option UInt64 := do
  let type ← msg[0]?
  match MsgType.ofByte type with
  | some .addOrder | some .addOrderMpid => do
    let m ← decodeAddOrder msg
    let side : UInt64 := match m.side with
      | .bid => 0
      | .ask => 1
    some (m.reference ^^^ m.timestamp ^^^ m.shares.toUInt64 ^^^ m.price.toUInt64 ^^^ m.symbol.bits ^^^ side)
  | some .orderExecuted | some .orderExecutedWithPrice => do
    let m ← decodeOrderExecuted msg
    some (m.reference ^^^ m.timestamp ^^^ m.shares.toUInt64 ^^^ m.matchNumber)
  | some .orderCancel => do
    let m ← decodeOrderCancel msg
    some (m.reference ^^^ m.timestamp ^^^ m.shares.toUInt64)
  | some .orderDelete => do
    let m ← decodeOrderDelete msg
    some (m.reference ^^^ m.timestamp)
  | some .orderReplace => do
    let m ← decodeOrderReplace msg
    some (m.originalReference ^^^ m.newReference ^^^ m.timestamp ^^^ m.shares.toUInt64 ^^^ m.price.toUInt64)
  | some .systemEvent => do
    let m ← decodeSystemEvent msg
    some (m.timestamp ^^^ m.code.toInt8.toInt64.toUInt64)
  | _ => some msg.length.toUInt64

/-! ## The check of a book -/

/-- What the loop over a queue has seen: whether every node so far is as it
should be, the shares and the nodes met, and the last of them. -/
structure QueueScan where
  ok : Bool := true
  sum : UInt64 := 0
  n : UInt32 := 0
  prev : Option OrderPtr := none
  deriving DecidableEq, Repr

/-- The loop over a queue. Its cycle guard stops it after 100001 nodes. -/
def scanQueue (h : Heap) (lvl : LevelPtr) : Nat → Option OrderPtr → QueueScan → Option QueueScan
  | 0, _, _ => none
  | _ + 1, none, q => some q
  | fuel + 1, some o, q =>
    let order := h.order o
    let q : QueueScan :=
      { ok := q.ok && decide (order.prev = q.prev) && decide (order.level = some lvl) &&
          decide (order.qty ≠ 0) && decide (order.price = (h.level lvl).price)
        sum := q.sum + order.qty.toUInt64
        n := q.n + 1
        prev := some o }
    if q.n > 100000 then some q else scanQueue h lvl fuel order.next q

structure Check where
  ok : Bool := true
  countedOrders : Nat := 0
  deriving DecidableEq, Repr

/-- Whether a level is worse than the one before, if there is one. -/
def ordered (s : Side) (price : Price) : Option Price → Bool
  | none => true
  | some previous =>
    match s with
    | .bid => decide (price < previous)
    | .ask => decide (price > previous)

/-- The callback of `for_each_level`. Beside the check it keeps the price of
the level before. -/
def checkLevel (h : Heap) (s : Side) (r : Check × Option Price) (lvl : LevelPtr) : Option (Check × Option Price) :=
  let l := h.level lvl
  let ok := r.1.ok && ordered s l.price r.2
  if l.orderCount = 0 ∨ l.head = none ∨ l.tail = none then
    some ({ r.1 with ok := false }, some l.price)
  else do
    let head ← l.head
    let tail ← l.tail
    let ok := ok && decide ((h.order head).prev = none) && decide ((h.order tail).next = none)
    let q ← scanQueue h lvl 100002 l.head {}
    let ok := ok && q.ok && decide (q.prev = l.tail) && decide (q.n = l.orderCount) && decide (q.sum = l.totalQty)
    some ({ ok, countedOrders := r.1.countedOrders + q.n.toNat }, some l.price)

section

variable {L M : Type} [Ladder L] [IdMap M]

def checkSide (b : OrderBook L M) (c : Check) (s : Side) : Option Check := do
  let lvls ← Ladder.levels b.ladder b.heap.level s
  let (c, _) ← lvls.foldlM (checkLevel b.heap s) (c, none)
  some c

def bookStructurallySound (b : OrderBook L M) : Option Bool := do
  let c ← [Side.bid, .ask].foldlM (checkSide b) {}
  some (c.ok && decide (c.countedOrders = b.openOrders))

/-- The books of stage 3, whose order does not matter. -/
def checkBook (r : UInt64 × Bool) (e : Symbol × OrderBook L M) : Option (UInt64 × Bool) := do
  let sound ← bookStructurallySound e.2
  let hash ← e.2.stateHash
  some (r.1 ^^^ hash, r.2 && sound)

end

/-! ## The stages -/

def ReadStatus.code : ReadStatus → UInt64
  | .ok => 0
  | .truncatedPrefix => 1
  | .truncatedMessage => 2
  | .unknownType => 3
  | .lengthMismatch => 4
  | .zeroLength => 5

/-- What a reading adds to `sink`, its messages decoded one by one. -/
def readStage (read : Option (List (List UInt8) × ReadResult)) (sink : UInt64) : Option UInt64 := do
  let (msgs, r) ← read
  let sink ← msgs.foldlM (fun sink msg => (decodeMessage msg).map (sink ^^^ ·)) sink
  some (sink ^^^ (r.messages.toUInt64 ^^^ r.offset.toUInt64 ^^^ ReadStatus.code r.status))

/-- The sink, and whether every book is sound. -/
def fuzzOne (data : List UInt8) : Option (UInt64 × Bool) := do
  let sink ← readStage (forEachFramedMessage data) 0
  let sink ← readStage (forEachRawMessage data) sink
  if data.length ≤ kReplayByteLimit then do
    let rep ← Replayer.new (M := OpenAddressIdMap) ({} : MapLadder)
    let (msgs, _) ← forEachFramedMessage data
    let rep ← msgs.foldlM (fun rep msg => (rep.apply msg).map Prod.snd) rep
    rep.books.books.foldlM checkBook (sink, true)
  else some (sink, true)

end Fuzz

end Pricetime
