import Pricetime.Impl.Book

/-!
# The reference book of the tests

A flat list of live orders, in the order of their arrival, and linear scans
over it. `std::sort` is `List.mergeSort`: the keys it compares here end in the
sequence number, which no two live orders share. `price = none` is
`has_limit = false`, and each iteration of the matching loop removes a live
order or is the last.
-/

namespace Pricetime

structure RefOrder where
  id : OrderId := 0
  price : Price := 0
  qty : Qty := 0
  side : Side := .bid
  participant : ParticipantId := 0
  seq : UInt64 := 0
  deriving DecidableEq, Repr

structure ReferenceBook where
  live : List RefOrder := []
  stp : SelfTradePolicy := .none
  stpFired : UInt64 := 0
  nextSeq : UInt64 := 0
  addedQty : UInt64 := 0
  tradedQty : UInt64 := 0
  canceledQty : UInt64 := 0
  min : Price := 0
  max : Price := 0
  bounded : Bool := true
  deriving DecidableEq, Repr

namespace ReferenceBook

/-- `ReferenceBook(min_price, max_price)`. -/
def ofRange (min max : Price) : ReferenceBook := { min, max }

/-- `ReferenceBook()`. -/
def unbounded : ReferenceBook := { bounded := false }

def setSelfTradePolicy (b : ReferenceBook) (p : SelfTradePolicy) : ReferenceBook := { b with stp := p }

def validPrice (b : ReferenceBook) (p : Price) : Bool :=
  !b.bounded || (decide (p ≥ b.min) && decide (p ≤ b.max))

def find (b : ReferenceBook) (id : OrderId) : Option RefOrder := b.live.find? fun o => o.id = id

def validate (b : ReferenceBook) (id : OrderId) (price : Price) (qty : Qty) : Result :=
  if id = 0 then .rejectedBadId
  else if qty = 0 then .rejectedBadQty
  else if !b.validPrice price then .rejectedBadPrice
  else if (b.find id).isSome then .rejectedDuplicateId
  else .ok

def erase (b : ReferenceBook) (id : OrderId) : ReferenceBook :=
  { b with live := b.live.eraseP fun o => o.id = id }

/-- Whether an incoming order of side `side` can trade with `o`. -/
def tradable (side : Side) (price : Option Price) (o : RefOrder) : Bool :=
  decide (o.side ≠ side) && reaches side price o.price

/-- The order of the matcher: by price, and by arrival. -/
def before (side : Side) (a b : RefOrder) : Bool :=
  if a.price ≠ b.price then
    match side with
    | .bid => decide (a.price < b.price)
    | .ask => decide (a.price > b.price)
  else decide (a.seq < b.seq)

/-- The loop of `best_counterparty` from index `i` on. -/
def bestFrom (side : Side) (price : Option Price) :
    Nat → List RefOrder → Option (Nat × RefOrder) → Option (Nat × RefOrder)
  | _, [], best => best
  | i, o :: os, best =>
    if !tradable side price o then bestFrom side price (i + 1) os best
    else match best with
      | none => bestFrom side price (i + 1) os (some (i, o))
      | some (j, b) =>
        let betterPrice := match side with
          | .bid => decide (o.price < b.price)
          | .ask => decide (o.price > b.price)
        if betterPrice || (decide (o.price = b.price) && decide (o.seq < b.seq)) then
          bestFrom side price (i + 1) os (some (i, o))
        else bestFrom side price (i + 1) os (some (j, b))

/-- The index of the best counterparty, and the order there. -/
def bestCounterparty (b : ReferenceBook) (side : Side) (price : Option Price) : Option (Nat × RefOrder) :=
  bestFrom side price 0 b.live none

def crossingInPriorityOrder (b : ReferenceBook) (side : Side) (price : Option Price) : List RefOrder :=
  (b.live.filter (tradable side price)).mergeSort fun x y => !before side y x

def stpOn (b : ReferenceBook) (actor : ParticipantId) : Bool :=
  decide (actor ≠ 0) && decide (b.stp ≠ .none)

/-- `match`. -/
def matchLoop (aggressor : OrderId) (actor : ParticipantId) (side : Side) (price : Option Price) :
    Nat → ReferenceBook → Qty → Option (ReferenceBook × Qty × List Execution)
  | 0, _, _ => none
  | fuel + 1, b, qty =>
    if qty = 0 then some (b, qty, [])
    else match b.bestCounterparty side price with
      | none => some (b, qty, [])
      | some (i, resting) =>
        if b.stpOn actor ∧ resting.participant = actor then
          let b := { b with stpFired := b.stpFired + 1 }
          let killResting := decide (b.stp ≠ .cancelAggressor)
          let killAggressor := decide (b.stp ≠ .cancelResting)
          let b := if killResting then
              { b with
                canceledQty := b.canceledQty + resting.qty.toUInt64
                live := b.live.eraseIdx i }
            else b
          if killAggressor then
            some ({ b with canceledQty := b.canceledQty + qty.toUInt64 }, 0, [])
          else matchLoop aggressor actor side price fuel b qty
        else do
          let fill := if qty < resting.qty then qty else resting.qty
          let restingQty := resting.qty - fill
          let exec : Execution := ⟨resting.id, aggressor, resting.price, fill⟩
          let b := { b with
            tradedQty := b.tradedQty + fill.toUInt64
            live := if restingQty = 0 then b.live.eraseIdx i
              else b.live.set i { resting with qty := restingQty } }
          let (b, left, execs) ← matchLoop aggressor actor side price fuel b (qty - fill)
          some (b, left, exec :: execs)

def matchOrder (b : ReferenceBook) (aggressor : OrderId) (actor : ParticipantId) (side : Side)
    (price : Option Price) (qty : Qty) : Option (ReferenceBook × Qty × List Execution) :=
  matchLoop aggressor actor side price (b.live.length + 1) b qty

def rest (b : ReferenceBook) (id : OrderId) (side : Side) (price : Price) (qty : Qty)
    (actor : ParticipantId) : ReferenceBook :=
  { b with
    live := b.live ++ [⟨id, price, qty, side, actor, b.nextSeq⟩]
    nextSeq := b.nextSeq + 1 }

def countAdded (b : ReferenceBook) (qty : Qty) : ReferenceBook :=
  { b with addedQty := b.addedQty + qty.toUInt64 }

def countCanceled (b : ReferenceBook) (qty : Qty) : ReferenceBook :=
  { b with canceledQty := b.canceledQty + qty.toUInt64 }

def addLimitAs (b : ReferenceBook) (actor : ParticipantId) (id : OrderId) (side : Side) (price : Price)
    (qty : Qty) : Option (Reply × ReferenceBook) :=
  let r := b.validate id price qty
  if r ≠ .ok then some ({ result := r }, b)
  else do
    let (b, left, execs) ← (b.countAdded qty).matchOrder id actor side (some price) qty
    some ({ result := .ok, execs }, if left > 0 then b.rest id side price left actor else b)

def addIocAs (b : ReferenceBook) (actor : ParticipantId) (id : OrderId) (side : Side) (price : Price)
    (qty : Qty) : Option (Reply × ReferenceBook) :=
  let r := b.validate id price qty
  if r ≠ .ok then some ({ result := r }, b)
  else do
    let (b, left, execs) ← (b.countAdded qty).matchOrder id actor side (some price) qty
    some ({ result := .ok, execs }, b.countCanceled left)

/-- The pre-scan of `add_fok_as`. -/
def reachable (stpOn stopsAtOwn : Bool) (actor : ParticipantId) (qty : Qty) : List RefOrder → UInt64 → UInt64
  | [], total => total
  | o :: os, total =>
    if stpOn ∧ o.participant = actor then
      if stopsAtOwn then total else reachable stpOn stopsAtOwn actor qty os total
    else
      let total := total + o.qty.toUInt64
      if total ≥ qty.toUInt64 then total else reachable stpOn stopsAtOwn actor qty os total

def addFokAs (b : ReferenceBook) (actor : ParticipantId) (id : OrderId) (side : Side) (price : Price)
    (qty : Qty) : Option (Reply × ReferenceBook) :=
  let r := b.validate id price qty
  if r ≠ .ok then some ({ result := r }, b)
  else
    let stopsAtOwn := decide (b.stp = .cancelAggressor) || decide (b.stp = .cancelBoth)
    if reachable (b.stpOn actor) stopsAtOwn actor qty (b.crossingInPriorityOrder side (some price)) 0 <
        qty.toUInt64 then
      some ({ result := .rejectedNoLiquidity }, b)
    else do
      let (b, left, execs) ← (b.countAdded qty).matchOrder id actor side (some price) qty
      some ({ result := .ok, execs }, b.countCanceled left)

def addMarketAs (b : ReferenceBook) (actor : ParticipantId) (id : OrderId) (side : Side) (qty : Qty) :
    Option (Reply × ReferenceBook) :=
  if id = 0 then some ({ result := .rejectedBadId }, b)
  else if qty = 0 then some ({ result := .rejectedBadQty }, b)
  else if (b.find id).isSome then some ({ result := .rejectedDuplicateId }, b)
  else do
    let (b, left, execs) ← (b.countAdded qty).matchOrder id actor side none qty
    some ({ result := .ok, execs }, b.countCanceled left)

def cancel (b : ReferenceBook) (id : OrderId) : Reply × ReferenceBook :=
  match b.find id with
  | none => ({ result := .rejectedUnknownId }, b)
  | some o => ({ result := .ok }, (b.countCanceled o.qty).erase id)

def replace (b : ReferenceBook) (oldId newId : OrderId) (newPrice : Price) (newQty : Qty) :
    Option (Reply × ReferenceBook) :=
  match b.find oldId with
  | none => some ({ result := .rejectedUnknownId }, b)
  | some old =>
    if newId = 0 then some ({ result := .rejectedBadId }, b)
    else if newQty = 0 then some ({ result := .rejectedBadQty }, b)
    else if !b.validPrice newPrice then some ({ result := .rejectedBadPrice }, b)
    else if newId ≠ oldId ∧ (b.find newId).isSome then some ({ result := .rejectedDuplicateId }, b)
    else
      ((b.countCanceled old.qty).erase oldId).addLimitAs old.participant newId old.side newPrice newQty

def openOrders (b : ReferenceBook) : Nat := b.live.length

/-- The keys of the map that `state_hash` builds for a side, best first. -/
def prices (b : ReferenceBook) (s : Side) : List Price :=
  let keys := (((b.live.filter fun o => o.side = s).map fun o => o.price).dedup).mergeSort
    fun p p' => decide (p ≤ p')
  match s with
  | .bid => keys.reverse
  | .ask => keys

/-- The orders `state_hash` sees at a price, in the order of their arrival. -/
def ordersAt (b : ReferenceBook) (s : Side) (p : Price) : List RefOrder :=
  (b.live.filter fun o => o.side = s ∧ o.price = p).mergeSort fun x y => !decide (y.seq < x.seq)

/-- What `state_hash` mixes for one price. -/
def level (b : ReferenceBook) (s : Side) (p : Price) : LevelView :=
  let os := b.ordersAt s p
  ⟨p, os.foldl (fun total o => total + o.qty.toUInt64) 0, os.length.toUInt32, os.map fun o => (o.id, o.qty)⟩

def levels (b : ReferenceBook) (s : Side) : List LevelView := (b.prices s).map (b.level s)

def stateHash (b : ReferenceBook) : UInt64 :=
  let value := (b.levels .bid).foldl LevelView.mix (Fnv1a64.mix Fnv1a64.kOffset 1)
  (b.levels .ask).foldl LevelView.mix (Fnv1a64.mix value 2)

end ReferenceBook

/-- The operations that the reference book has: order entry. -/
inductive EntryOp where
  | setSelfTradePolicy (p : SelfTradePolicy)
  | addLimitAs (actor : ParticipantId) (id : OrderId) (side : Side) (price : Price) (qty : Qty)
  | addIocAs (actor : ParticipantId) (id : OrderId) (side : Side) (price : Price) (qty : Qty)
  | addFokAs (actor : ParticipantId) (id : OrderId) (side : Side) (price : Price) (qty : Qty)
  | addMarketAs (actor : ParticipantId) (id : OrderId) (side : Side) (qty : Qty)
  | cancel (id : OrderId)
  | replace (oldId newId : OrderId) (newPrice : Price) (newQty : Qty)
  deriving DecidableEq, Repr

def EntryOp.toOp : EntryOp → OrderBook.Op
  | .setSelfTradePolicy p => .setSelfTradePolicy p
  | .addLimitAs actor id side price qty => .addLimitAs actor id side price qty
  | .addIocAs actor id side price qty => .addIocAs actor id side price qty
  | .addFokAs actor id side price qty => .addFokAs actor id side price qty
  | .addMarketAs actor id side qty => .addMarketAs actor id side qty
  | .cancel id => .cancel id
  | .replace oldId newId newPrice newQty => .replace oldId newId newPrice newQty

namespace ReferenceBook

def apply (b : ReferenceBook) : EntryOp → Option (Reply × ReferenceBook)
  | .setSelfTradePolicy p => some ({ result := .ok }, b.setSelfTradePolicy p)
  | .addLimitAs actor id side price qty => b.addLimitAs actor id side price qty
  | .addIocAs actor id side price qty => b.addIocAs actor id side price qty
  | .addFokAs actor id side price qty => b.addFokAs actor id side price qty
  | .addMarketAs actor id side qty => b.addMarketAs actor id side qty
  | .cancel id => some (b.cancel id)
  | .replace oldId newId newPrice newQty => b.replace oldId newId newPrice newQty

end ReferenceBook

end Pricetime
