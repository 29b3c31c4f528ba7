import Pricetime.Impl.IdMap
import Pricetime.Impl.Ladder
import Pricetime.Impl.Level

/-!
# The order book

`OrderBook L M`, over a ladder `L` and an id map `M`. An operation takes the
book to a `Reply` (its result, the executions it reports and the out-parameter
of the feed operations) and the book it leaves, or to `none`: a null or
out-of-range access, or a loop that does not end. Each iteration of the
matching loops removes a resting order or is the last, and a walk visits each
node once, so that the number of open orders bounds them.

`price = none` in `matchLoop` and `available` is the market order's
`HasLimit = false`.
-/

namespace Pricetime

structure OrderBook (L M : Type) where
  stp : SelfTradePolicy := .none
  ladder : L
  pool : OrderPool := .empty
  orders : M
  counters : Counters := {}
  heap : Heap := {}

structure Reply where
  result : Result
  execs : List Execution := []
  taken : Qty := 0
  deriving DecidableEq, Repr

/-- A level as its observers see it: aggregates, and the queue's ids and
remaining quantities. -/
structure LevelView where
  price : Price
  totalQty : UInt64
  orderCount : UInt32
  orders : List (OrderId × Qty)
  deriving DecidableEq, Repr

/-- One level of aggregated depth. -/
structure DepthLevel where
  price : Price := 0
  qty : UInt64 := 0
  orders : UInt32 := 0
  deriving DecidableEq, Repr

structure Depth where
  bids : List DepthLevel
  asks : List DepthLevel
  deriving DecidableEq, Repr

/-- The queue from node `o` on, along the `next` pointers; `none` if it is
longer than `fuel`. -/
def Heap.queueFrom (h : Heap) : Nat → Option OrderPtr → Option (List OrderPtr)
  | _, none => some []
  | 0, some _ => none
  | fuel + 1, some o => do
    let rest ← h.queueFrom fuel (h.order o).next
    some (o :: rest)

namespace OrderBook

variable {L M : Type} [Ladder L] [IdMap M]

/-- A book over a ladder. -/
def new (ladder : L) : Option (OrderBook L M) := do
  let orders ← IdMap.new
  let orders ← IdMap.reserve orders (2 ^ 16)
  some { ladder, orders }

def reserveOrders (b : OrderBook L M) (expected : Nat) : Option (OrderBook L M) := do
  let orders ← IdMap.reserve b.orders expected
  some { b with orders }

def setSelfTradePolicy (b : OrderBook L M) (p : SelfTradePolicy) : OrderBook L M := { b with stp := p }

def findOrder (b : OrderBook L M) (id : OrderId) : Option (Option OrderPtr) := IdMap.find b.orders id

def openOrders (b : OrderBook L M) : Nat := IdMap.size b.orders

/-! ## Shared steps -/

/-- The three lines every removal consists of: the node leaves its queue, the
id map and, for the free list, the book. -/
def removeOrder (b : OrderBook L M) (lvl : LevelPtr) (o : OrderPtr) : Option (OrderBook L M) := do
  let heap := Level.remove b.heap lvl o
  let (_, orders) ← IdMap.erase b.orders (heap.order o).id
  let (pool, heap) := b.pool.release heap o
  some { b with orders, pool, heap }

/-- `if (lvl->order_count == 0) ladder_.on_level_empty(s, lvl)`. -/
def dropIfEmpty (b : OrderBook L M) (s : Side) (lvl : LevelPtr) : Option (OrderBook L M) :=
  if (b.heap.level lvl).orderCount = 0 then do
    let ladder ← Ladder.onLevelEmpty b.ladder b.heap.level s lvl
    some { b with ladder }
  else some b

def rest (b : OrderBook L M) (id : OrderId) (side : Side) (price : Price) (qty : Qty)
    (actor : ParticipantId) : Option (OrderBook L M) := do
  let (lvl, ladder, level) ← Ladder.getOrCreate b.ladder b.heap.level side price
  let (o, pool, heap) := b.pool.alloc { b.heap with level }
  let heap := heap.modifyOrder o fun x =>
    { x with id := id, price := price, qty := qty, side := side, participant := actor }
  let heap := Level.pushBack heap lvl o
  let (_, orders) ← IdMap.insert b.orders id o
  some { b with ladder, pool, heap, orders }

def cancelOpen (b : OrderBook L M) (o : OrderPtr) : Option (OrderBook L M) := do
  let lvl ← (b.heap.order o).level
  let side := (b.heap.order o).side
  let counters := { b.counters with
    canceledQty := b.counters.canceledQty + (b.heap.order o).qty.toUInt64 }
  let b ← removeOrder { b with counters } lvl o
  dropIfEmpty b side lvl

/-- What `execute_resting` and `reduce_resting` share. -/
def consume (b : OrderBook L M) (id : OrderId) (qty : Qty) (isExecution : Bool) :
    Option (Reply × OrderBook L M) := do
  match ← IdMap.find b.orders id with
  | none => some ({ result := .rejectedUnknownId }, b)
  | some o =>
    if qty = 0 then some ({ result := .rejectedBadQty }, b)
    else do
      let open_ := (b.heap.order o).qty
      let take := if qty < open_ then qty else open_
      let counters :=
        if isExecution then
          { b.counters with executedQty := b.counters.executedQty + take.toUInt64 }
        else { b.counters with canceledQty := b.counters.canceledQty + take.toUInt64 }
      let b := { b with counters }
      let lvl ← (b.heap.order o).level
      if take = open_ then do
        let side := (b.heap.order o).side
        let b ← removeOrder b lvl o
        let b ← dropIfEmpty b side lvl
        some ({ result := .ok, taken := take }, b)
      else some ({ result := .ok, taken := take }, { b with heap := Level.reduce b.heap lvl o take })

def validate (b : OrderBook L M) (id : OrderId) (price : Price) (qty : Qty) : Option Result :=
  if id = 0 then some .rejectedBadId
  else if qty = 0 then some .rejectedBadQty
  else if !Ladder.validPrice b.ladder price then some .rejectedBadPrice
  else do
    match ← IdMap.find b.orders id with
    | some _ => some .rejectedDuplicateId
    | none => some .ok

/-! ## Matching -/

/-- Self-trade prevention is on for an aggressor. -/
def stpOn (b : OrderBook L M) (actor : ParticipantId) : Bool :=
  decide (actor ≠ 0) && decide (b.stp ≠ .none)

/-- The kill of a resting order by self-trade prevention. -/
def killResting (b : OrderBook L M) (lvl : LevelPtr) (resting : OrderPtr) : Option (OrderBook L M) :=
  let counters := { b.counters with
    canceledQty := b.counters.canceledQty + (b.heap.order resting).qty.toUInt64 }
  removeOrder { b with counters } lvl resting

/-- A fill of the resting order at the head of a level. -/
def fillResting (b : OrderBook L M) (lvl : LevelPtr) (resting : OrderPtr) (fill : Qty) :
    Option (OrderBook L M) :=
  let counters := { b.counters with tradedQty := b.counters.tradedQty + fill.toUInt64 }
  let b := { b with counters, heap := Level.reduce b.heap lvl resting fill }
  if (b.heap.order resting).qty = 0 then removeOrder b lvl resting else some b

/-- The inner loop of `match`, over the queue of one level: the book, the
quantity left, whether self-trade prevention killed the aggressor, and the
executions. -/
def matchLevel (aggressor : OrderId) (actor : ParticipantId) (lvl : LevelPtr) :
    Nat → OrderBook L M → Qty → Option (OrderBook L M × Qty × Bool × List Execution)
  | 0, _, _ => none
  | fuel + 1, b, qty =>
    if qty = 0 then some (b, qty, false, [])
    else match (b.heap.level lvl).head with
      | none => some (b, qty, false, [])
      | some resting =>
        let o := b.heap.order resting
        if b.stpOn actor ∧ o.participant = actor then do
          let counters := { b.counters with
            selfTradesPrevented := b.counters.selfTradesPrevented + 1 }
          let b := { b with counters }
          let b ← if b.stp ≠ .cancelAggressor then b.killResting lvl resting else some b
          if b.stp ≠ .cancelResting then
            let counters := { b.counters with canceledQty := b.counters.canceledQty + qty.toUInt64 }
            some ({ b with counters }, qty, true, [])
          else matchLevel aggressor actor lvl fuel b qty
        else do
          let fill := if qty < o.qty then qty else o.qty
          let exec : Execution := ⟨o.id, aggressor, (b.heap.level lvl).price, fill⟩
          let b ← b.fillResting lvl resting fill
          let (b, left, killed, execs) ← matchLevel aggressor actor lvl fuel b (qty - fill)
          some (b, left, killed, exec :: execs)

/-- The outer loop of `match`; the quantity it returns is what is left to
rest or to cancel. -/
def matchLoop (aggressor : OrderId) (actor : ParticipantId) (side : Side) (price : Option Price) :
    Nat → OrderBook L M → Qty → Option (OrderBook L M × Qty × List Execution)
  | 0, _, _ => none
  | fuel + 1, b, qty =>
    if qty = 0 then some (b, qty, [])
    else match Ladder.best b.ladder (opposite side) with
      | none => some (b, qty, [])
      | some lvl =>
        if reaches side price (b.heap.level lvl).price then do
          let (b, left, killed, execs) ← matchLevel aggressor actor lvl (b.openOrders + 1) b qty
          let b ← b.dropIfEmpty (opposite side) lvl
          if killed then some (b, 0, execs)
          else do
            let (b, left, more) ← matchLoop aggressor actor side price fuel b left
            some (b, left, execs ++ more)
        else some (b, qty, [])

/-- `match`. -/
def matchOrder (b : OrderBook L M) (aggressor : OrderId) (actor : ParticipantId) (side : Side)
    (price : Option Price) (qty : Qty) : Option (OrderBook L M × Qty × List Execution) :=
  matchLoop aggressor actor side price (b.openOrders + 1) b qty

/-- The per-order part of `available`: the total so far, and whether to go on
to the next level. -/
def availableOrders (actor : ParticipantId) (stopsAtOwn : Bool) (need : Qty) :
    List Order → UInt64 → UInt64 × Bool
  | [], total => (total, true)
  | o :: os, total =>
    if o.participant = actor then
      if stopsAtOwn then (total, false) else availableOrders actor stopsAtOwn need os total
    else
      let total := total + o.qty.toUInt64
      if total ≥ need.toUInt64 then (total, false)
      else availableOrders actor stopsAtOwn need os total

def stopsAtOwn (b : OrderBook L M) : Bool :=
  decide (b.stp = .cancelAggressor) || decide (b.stp = .cancelBoth)

def availableLevels (b : OrderBook L M) (side : Side) (price : Option Price) (need : Qty)
    (actor : ParticipantId) : List LevelPtr → UInt64 → Option UInt64
  | [], total => some total
  | lvl :: lvls, total =>
    if !reaches side price (b.heap.level lvl).price then some total
    else if !b.stpOn actor then
      let total := total + (b.heap.level lvl).totalQty
      if total < need.toUInt64 then availableLevels b side price need actor lvls total
      else some total
    else do
      let os ← b.heap.queueFrom b.openOrders (b.heap.level lvl).head
      let (total, more) := availableOrders actor b.stopsAtOwn need (os.map b.heap.order) total
      if more then availableLevels b side price need actor lvls total else some total

def available (b : OrderBook L M) (side : Side) (price : Option Price) (need : Qty)
    (actor : ParticipantId) : Option UInt64 := do
  let lvls ← Ladder.levels b.ladder b.heap.level (opposite side)
  availableLevels b side price need actor lvls 0

/-! ## Order entry -/

/-- `counters_.added_qty += qty`. -/
def countAdded (b : OrderBook L M) (qty : Qty) : OrderBook L M :=
  { b with counters := { b.counters with addedQty := b.counters.addedQty + qty.toUInt64 } }

/-- `counters_.canceled_qty += qty`. -/
def countCanceled (b : OrderBook L M) (qty : Qty) : OrderBook L M :=
  { b with counters := { b.counters with canceledQty := b.counters.canceledQty + qty.toUInt64 } }

def addLimitAs (b : OrderBook L M) (actor : ParticipantId) (id : OrderId) (side : Side)
    (price : Price) (qty : Qty) : Option (Reply × OrderBook L M) := do
  let r ← b.validate id price qty
  if r ≠ .ok then some ({ result := r }, b)
  else do
    let b := b.countAdded qty
    let (b, left, execs) ← b.matchOrder id actor side (some price) qty
    let b ← if left > 0 then b.rest id side price left actor else some b
    some ({ result := .ok, execs }, b)

def addIocAs (b : OrderBook L M) (actor : ParticipantId) (id : OrderId) (side : Side)
    (price : Price) (qty : Qty) : Option (Reply × OrderBook L M) := do
  let r ← b.validate id price qty
  if r ≠ .ok then some ({ result := r }, b)
  else do
    let b := b.countAdded qty
    let (b, left, execs) ← b.matchOrder id actor side (some price) qty
    some ({ result := .ok, execs }, b.countCanceled left)

def addFokAs (b : OrderBook L M) (actor : ParticipantId) (id : OrderId) (side : Side)
    (price : Price) (qty : Qty) : Option (Reply × OrderBook L M) := do
  let r ← b.validate id price qty
  if r ≠ .ok then some ({ result := r }, b)
  else do
    let total ← b.available side (some price) qty actor
    if total < qty.toUInt64 then some ({ result := .rejectedNoLiquidity }, b)
    else do
      let b := b.countAdded qty
      let (b, left, execs) ← b.matchOrder id actor side (some price) qty
      some ({ result := .ok, execs }, b.countCanceled left)

def addMarketAs (b : OrderBook L M) (actor : ParticipantId) (id : OrderId) (side : Side)
    (qty : Qty) : Option (Reply × OrderBook L M) :=
  if id = 0 then some ({ result := .rejectedBadId }, b)
  else if qty = 0 then some ({ result := .rejectedBadQty }, b)
  else do
    match ← IdMap.find b.orders id with
    | some _ => some ({ result := .rejectedDuplicateId }, b)
    | none =>
      let b := b.countAdded qty
      let (b, left, execs) ← b.matchOrder id actor side none qty
      some ({ result := .ok, execs }, b.countCanceled left)

def cancel (b : OrderBook L M) (id : OrderId) : Option (Reply × OrderBook L M) := do
  match ← IdMap.find b.orders id with
  | none => some ({ result := .rejectedUnknownId }, b)
  | some o =>
    let b ← b.cancelOpen o
    some ({ result := .ok }, b)

def replace (b : OrderBook L M) (oldId newId : OrderId) (newPrice : Price) (newQty : Qty) :
    Option (Reply × OrderBook L M) := do
  match ← IdMap.find b.orders oldId with
  | none => some ({ result := .rejectedUnknownId }, b)
  | some old =>
    if newId = 0 then some ({ result := .rejectedBadId }, b)
    else if newQty = 0 then some ({ result := .rejectedBadQty }, b)
    else if !Ladder.validPrice b.ladder newPrice then some ({ result := .rejectedBadPrice }, b)
    else do
      let taken ← if newId ≠ oldId then IdMap.find b.orders newId else some none
      if taken.isSome then some ({ result := .rejectedDuplicateId }, b)
      else do
        let side := (b.heap.order old).side
        let actor := (b.heap.order old).participant
        let b ← b.cancelOpen old
        b.addLimitAs actor newId side newPrice newQty

/-! ## Feed reconstruction -/

def insertPassive (b : OrderBook L M) (id : OrderId) (side : Side) (price : Price) (qty : Qty) :
    Option (Reply × OrderBook L M) := do
  let r ← b.validate id price qty
  if r ≠ .ok then some ({ result := r }, b)
  else do
    let b ← (b.countAdded qty).rest id side price qty 0
    some ({ result := .ok }, b)

def executeResting (b : OrderBook L M) (id : OrderId) (qty : Qty) : Option (Reply × OrderBook L M) :=
  b.consume id qty true

def reduceResting (b : OrderBook L M) (id : OrderId) (qty : Qty) : Option (Reply × OrderBook L M) :=
  b.consume id qty false

/-! ## Inspection -/

def best (b : OrderBook L M) (s : Side) : Option Level :=
  (Ladder.best b.ladder s).map b.heap.level

def viewLevel (b : OrderBook L M) (lvl : LevelPtr) : Option LevelView := do
  let l := b.heap.level lvl
  let os ← b.heap.queueFrom b.openOrders l.head
  some ⟨l.price, l.totalQty, l.orderCount, os.map fun o => ((b.heap.order o).id, (b.heap.order o).qty)⟩

/-- What `for_each_level` shows, with each level's queue. -/
def walk (b : OrderBook L M) (s : Side) : Option (List LevelView) := do
  let lvls ← Ladder.levels b.ladder b.heap.level s
  lvls.mapM b.viewLevel

/-- The walk of `depth`, stopped at `maxLevels`. -/
def collect (b : OrderBook L M) (s : Side) (maxLevels : Nat) : Option (List DepthLevel) :=
  if maxLevels = 0 then some []
  else do
    let lvls ← Ladder.levels b.ladder b.heap.level s
    some ((lvls.take maxLevels).map fun lvl =>
      let l := b.heap.level lvl
      ⟨l.price, l.totalQty, l.orderCount⟩)

def depth (b : OrderBook L M) (maxLevels : Nat) : Option Depth := do
  let bids ← b.collect .bid maxLevels
  let asks ← b.collect .ask maxLevels
  some ⟨bids, asks⟩

end OrderBook

/-! ## Fingerprints -/

namespace Fnv1a64

def kOffset : UInt64 := 14695981039346656037

def kPrime : UInt64 := 1099511628211

def mixByte (value : UInt64) (b : UInt8) : UInt64 := (value ^^^ b.toUInt64) * kPrime

def mix (value v : UInt64) : UInt64 :=
  (List.range 8).foldl (fun value i => mixByte value (v >>> (8 * i).toUInt64).toUInt8) value

end Fnv1a64

def LevelView.mix (value : UInt64) (l : LevelView) : UInt64 :=
  let value := Fnv1a64.mix value l.price.toUInt64
  let value := Fnv1a64.mix value l.totalQty
  let value := Fnv1a64.mix value l.orderCount.toUInt64
  l.orders.foldl (fun value o => Fnv1a64.mix (Fnv1a64.mix value o.1) o.2.toUInt64) value

namespace OrderBook

variable {L M : Type} [Ladder L] [IdMap M]

def stateHash (b : OrderBook L M) : Option UInt64 := do
  let bids ← b.walk .bid
  let asks ← b.walk .ask
  let value := bids.foldl LevelView.mix (Fnv1a64.mix Fnv1a64.kOffset 1)
  some (asks.foldl LevelView.mix (Fnv1a64.mix value 2))

/-- An operation of the public interface. -/
inductive Op where
  | setSelfTradePolicy (p : SelfTradePolicy)
  | reserveOrders (expected : Nat)
  | addLimitAs (actor : ParticipantId) (id : OrderId) (side : Side) (price : Price) (qty : Qty)
  | addIocAs (actor : ParticipantId) (id : OrderId) (side : Side) (price : Price) (qty : Qty)
  | addFokAs (actor : ParticipantId) (id : OrderId) (side : Side) (price : Price) (qty : Qty)
  | addMarketAs (actor : ParticipantId) (id : OrderId) (side : Side) (qty : Qty)
  | cancel (id : OrderId)
  | replace (oldId newId : OrderId) (newPrice : Price) (newQty : Qty)
  | insertPassive (id : OrderId) (side : Side) (price : Price) (qty : Qty)
  | executeResting (id : OrderId) (qty : Qty)
  | reduceResting (id : OrderId) (qty : Qty)
  deriving DecidableEq, Repr

def apply (b : OrderBook L M) : Op → Option (Reply × OrderBook L M)
  | .setSelfTradePolicy p => some ({ result := .ok }, b.setSelfTradePolicy p)
  | .reserveOrders n => do
    let b ← b.reserveOrders n
    some ({ result := .ok }, b)
  | .addLimitAs actor id side price qty => b.addLimitAs actor id side price qty
  | .addIocAs actor id side price qty => b.addIocAs actor id side price qty
  | .addFokAs actor id side price qty => b.addFokAs actor id side price qty
  | .addMarketAs actor id side qty => b.addMarketAs actor id side qty
  | .cancel id => b.cancel id
  | .replace oldId newId newPrice newQty => b.replace oldId newId newPrice newQty
  | .insertPassive id side price qty => b.insertPassive id side price qty
  | .executeResting id qty => b.executeResting id qty
  | .reduceResting id qty => b.reduceResting id qty

end OrderBook

end Pricetime
