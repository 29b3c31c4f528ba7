import Pricetime.Impl.Book

/-!
# What an order book is for

A book is two lists of price levels, best first, each with the queue of its
resting orders, oldest first. An operation is a total function: it matches by
recursion over the queues, and otherwise inserts into them or changes one
order. There are no nodes, and counts are not stored.

`accepts` is the set of prices that the book may rest orders at.
-/

namespace Pricetime

namespace Counters

def add (c : Counters) (qty : Qty) : Counters := { c with addedQty := c.addedQty + qty.toUInt64 }

def trade (c : Counters) (qty : Qty) : Counters := { c with tradedQty := c.tradedQty + qty.toUInt64 }

def cancel (c : Counters) (qty : Qty) : Counters := { c with canceledQty := c.canceledQty + qty.toUInt64 }

def execute (c : Counters) (qty : Qty) : Counters := { c with executedQty := c.executedQty + qty.toUInt64 }

def prevent (c : Counters) : Counters := { c with selfTradesPrevented := c.selfTradesPrevented + 1 }

end Counters

namespace Spec

structure Resting where
  id : OrderId
  qty : Qty
  participant : ParticipantId
  deriving DecidableEq, Repr

structure PriceLevel where
  price : Price
  orders : List Resting
  deriving DecidableEq, Repr

structure Book where
  levels : Side → List PriceLevel := fun _ => []
  stp : SelfTradePolicy := .none
  counters : Counters := {}

/-! ## Matching -/

/-- Whether the policy keeps an aggressor from trading with an order of
`participant`. -/
def prevents (policy : SelfTradePolicy) (actor participant : ParticipantId) : Bool :=
  decide (actor ≠ 0) && decide (policy ≠ .none) && decide (participant = actor)

/-- What is left of a queue and of an aggressor that met it. -/
structure QueueMatch where
  rest : List Resting
  left : Qty
  killed : Bool
  execs : List Execution
  counters : Counters

def matchQueue (policy : SelfTradePolicy) (aggressor : OrderId) (actor : ParticipantId) (price : Price) :
    List Resting → Qty → Counters → QueueMatch
  | [], qty, c => ⟨[], qty, false, [], c⟩
  | o :: os, qty, c =>
    if qty = 0 then ⟨o :: os, qty, false, [], c⟩
    else if prevents policy actor o.participant then
      match policy with
      | .cancelAggressor => ⟨o :: os, qty, true, [], c.prevent.cancel qty⟩
      | .cancelBoth => ⟨os, qty, true, [], (c.prevent.cancel o.qty).cancel qty⟩
      | _ => matchQueue policy aggressor actor price os qty (c.prevent.cancel o.qty)
    else if qty < o.qty then
      ⟨{ o with qty := o.qty - qty } :: os, 0, false, [⟨o.id, aggressor, price, qty⟩], c.trade qty⟩
    else
      let r := matchQueue policy aggressor actor price os (qty - o.qty) (c.trade o.qty)
      { r with execs := ⟨o.id, aggressor, price, o.qty⟩ :: r.execs }

/-- A level with a new queue, gone if that is empty. -/
def keep (price : Price) (orders : List Resting) : List PriceLevel :=
  if orders = [] then [] else [⟨price, orders⟩]

structure SideMatch where
  levels : List PriceLevel
  left : Qty
  execs : List Execution
  counters : Counters

def matchLevels (policy : SelfTradePolicy) (aggressor : OrderId) (actor : ParticipantId)
    (reach : Price → Bool) : List PriceLevel → Qty → Counters → SideMatch
  | [], qty, c => ⟨[], qty, [], c⟩
  | l :: ls, qty, c =>
    if qty = 0 then ⟨l :: ls, qty, [], c⟩
    else if reach l.price then
      let r := matchQueue policy aggressor actor l.price l.orders qty c
      if r.killed then ⟨keep l.price r.rest ++ ls, 0, r.execs, r.counters⟩
      else
        let r' := matchLevels policy aggressor actor reach ls r.left r.counters
        ⟨keep l.price r.rest ++ r'.levels, r'.left, r.execs ++ r'.execs, r'.counters⟩
    else ⟨l :: ls, qty, [], c⟩

/-- What an aggressor could trade with in a queue, and whether it gets past
the queue. -/
def availableQueue (policy : SelfTradePolicy) (actor : ParticipantId) : List Resting → Nat × Bool
  | [] => (0, true)
  | o :: os =>
    if prevents policy actor o.participant then
      if policy = .cancelResting then availableQueue policy actor os else (0, false)
    else
      let r := availableQueue policy actor os
      (o.qty.toNat + r.1, r.2)

def availableLevels (policy : SelfTradePolicy) (actor : ParticipantId) (reach : Price → Bool) :
    List PriceLevel → Nat
  | [] => 0
  | l :: ls =>
    if reach l.price then
      let r := availableQueue policy actor l.orders
      if r.2 then r.1 + availableLevels policy actor reach ls else r.1
    else 0

/-! ## Lists of levels -/

/-- An order at the end of the queue of its price. -/
def insertAt (s : Side) (price : Price) (o : Resting) : List PriceLevel → List PriceLevel
  | [] => [⟨price, [o]⟩]
  | l :: ls =>
    if l.price = price then ⟨l.price, l.orders ++ [o]⟩ :: ls
    else if s.better l.price price then l :: insertAt s price o ls
    else ⟨price, [o]⟩ :: l :: ls

/-- The queue of a price changed by `f`. -/
def modifyAt (price : Price) (f : List Resting → List Resting) : List PriceLevel → List PriceLevel
  | [] => []
  | l :: ls => if l.price = price then keep l.price (f l.orders) ++ ls else l :: modifyAt price f ls

/-- An order out of a queue. -/
def dropId (id : OrderId) (orders : List Resting) : List Resting := orders.eraseP fun o => o.id = id

/-- `take` shares off an order of a queue. -/
def reduceId (id : OrderId) (take : Qty) (orders : List Resting) : List Resting :=
  orders.map fun o => if o.id = id then { o with qty := o.qty - take } else o

/-- Where an order rests. -/
structure Place where
  side : Side
  price : Price
  order : Resting
  deriving DecidableEq, Repr

def findIn (s : Side) (id : OrderId) (ls : List PriceLevel) : Option Place :=
  ls.findSome? fun l => (l.orders.find? fun o => o.id = id).map fun o => ⟨s, l.price, o⟩

namespace Book

def find (b : Book) (id : OrderId) : Option Place :=
  (findIn .bid id (b.levels .bid)).or (findIn .ask id (b.levels .ask))

def openOrders (b : Book) : Nat :=
  ((b.levels .bid ++ b.levels .ask).map fun l => l.orders.length).sum

def setLevels (b : Book) (s : Side) (ls : List PriceLevel) : Book :=
  { b with levels := Function.update b.levels s ls }

def rest (b : Book) (s : Side) (price : Price) (o : Resting) : Book :=
  b.setLevels s (insertAt s price o (b.levels s))

def remove (b : Book) (p : Place) : Book :=
  b.setLevels p.side (modifyAt p.price (dropId p.order.id) (b.levels p.side))

def reduce (b : Book) (p : Place) (take : Qty) : Book :=
  b.setLevels p.side (modifyAt p.price (reduceId p.order.id take) (b.levels p.side))

def cancelOpen (b : Book) (p : Place) : Book :=
  { b with counters := b.counters.cancel p.order.qty }.remove p

/-! ## Operations -/

def validate (accepts : Price → Bool) (b : Book) (id : OrderId) (price : Price) (qty : Qty) : Result :=
  if id = 0 then .rejectedBadId
  else if qty = 0 then .rejectedBadQty
  else if !accepts price then .rejectedBadPrice
  else if (b.find id).isSome then .rejectedDuplicateId
  else .ok

def matchOrder (b : Book) (aggressor : OrderId) (actor : ParticipantId) (side : Side)
    (limit : Option Price) (qty : Qty) : Book × Qty × List Execution :=
  let r := matchLevels b.stp aggressor actor (reaches side limit) (b.levels (opposite side)) qty
    b.counters
  ({ b with counters := r.counters }.setLevels (opposite side) r.levels, r.left, r.execs)

def available (b : Book) (side : Side) (limit : Option Price) (actor : ParticipantId) : Nat :=
  availableLevels b.stp actor (reaches side limit) (b.levels (opposite side))

def countAdded (b : Book) (qty : Qty) : Book := { b with counters := b.counters.add qty }

def countCanceled (b : Book) (qty : Qty) : Book := { b with counters := b.counters.cancel qty }

def addLimitAs (accepts : Price → Bool) (b : Book) (actor : ParticipantId) (id : OrderId) (side : Side)
    (price : Price) (qty : Qty) : Reply × Book :=
  let r := b.validate accepts id price qty
  if r ≠ .ok then ({ result := r }, b)
  else
    let (b, left, execs) := (b.countAdded qty).matchOrder id actor side (some price) qty
    ({ result := .ok, execs }, if left > 0 then b.rest side price ⟨id, left, actor⟩ else b)

def addIocAs (accepts : Price → Bool) (b : Book) (actor : ParticipantId) (id : OrderId) (side : Side)
    (price : Price) (qty : Qty) : Reply × Book :=
  let r := b.validate accepts id price qty
  if r ≠ .ok then ({ result := r }, b)
  else
    let (b, left, execs) := (b.countAdded qty).matchOrder id actor side (some price) qty
    ({ result := .ok, execs }, b.countCanceled left)

def addFokAs (accepts : Price → Bool) (b : Book) (actor : ParticipantId) (id : OrderId) (side : Side)
    (price : Price) (qty : Qty) : Reply × Book :=
  let r := b.validate accepts id price qty
  if r ≠ .ok then ({ result := r }, b)
  else if b.available side (some price) actor < qty.toNat then
    ({ result := .rejectedNoLiquidity }, b)
  else
    let (b, left, execs) := (b.countAdded qty).matchOrder id actor side (some price) qty
    ({ result := .ok, execs }, b.countCanceled left)

def addMarketAs (b : Book) (actor : ParticipantId) (id : OrderId) (side : Side) (qty : Qty) :
    Reply × Book :=
  if id = 0 then ({ result := .rejectedBadId }, b)
  else if qty = 0 then ({ result := .rejectedBadQty }, b)
  else if (b.find id).isSome then ({ result := .rejectedDuplicateId }, b)
  else
    let (b, left, execs) := (b.countAdded qty).matchOrder id actor side none qty
    ({ result := .ok, execs }, b.countCanceled left)

def cancel (b : Book) (id : OrderId) : Reply × Book :=
  match b.find id with
  | none => ({ result := .rejectedUnknownId }, b)
  | some p => ({ result := .ok }, b.cancelOpen p)

def replace (accepts : Price → Bool) (b : Book) (oldId newId : OrderId) (newPrice : Price)
    (newQty : Qty) : Reply × Book :=
  match b.find oldId with
  | none => ({ result := .rejectedUnknownId }, b)
  | some p =>
    if newId = 0 then ({ result := .rejectedBadId }, b)
    else if newQty = 0 then ({ result := .rejectedBadQty }, b)
    else if !accepts newPrice then ({ result := .rejectedBadPrice }, b)
    else if newId ≠ oldId ∧ (b.find newId).isSome then ({ result := .rejectedDuplicateId }, b)
    else (b.cancelOpen p).addLimitAs accepts p.order.participant newId p.side newPrice newQty

def insertPassive (accepts : Price → Bool) (b : Book) (id : OrderId) (side : Side) (price : Price)
    (qty : Qty) : Reply × Book :=
  let r := b.validate accepts id price qty
  if r ≠ .ok then ({ result := r }, b)
  else ({ result := .ok }, (b.countAdded qty).rest side price ⟨id, qty, 0⟩)

def consume (b : Book) (id : OrderId) (qty : Qty) (isExecution : Bool) : Reply × Book :=
  match b.find id with
  | none => ({ result := .rejectedUnknownId }, b)
  | some p =>
    if qty = 0 then ({ result := .rejectedBadQty }, b)
    else
      let take := if qty < p.order.qty then qty else p.order.qty
      let counters := if isExecution then b.counters.execute take else b.counters.cancel take
      let b := { b with counters }
      ({ result := .ok, taken := take }, if take = p.order.qty then b.remove p else b.reduce p take)

def apply (accepts : Price → Bool) (b : Book) : OrderBook.Op → Reply × Book
  | .setSelfTradePolicy p => ({ result := .ok }, { b with stp := p })
  | .reserveOrders _ => ({ result := .ok }, b)
  | .addLimitAs actor id side price qty => b.addLimitAs accepts actor id side price qty
  | .addIocAs actor id side price qty => b.addIocAs accepts actor id side price qty
  | .addFokAs actor id side price qty => b.addFokAs accepts actor id side price qty
  | .addMarketAs actor id side qty => b.addMarketAs actor id side qty
  | .cancel id => b.cancel id
  | .replace oldId newId newPrice newQty => b.replace accepts oldId newId newPrice newQty
  | .insertPassive id side price qty => b.insertPassive accepts id side price qty
  | .executeResting id qty => b.consume id qty true
  | .reduceResting id qty => b.consume id qty false

end Book

/-- The shares of a queue, modulo `2^64`. -/
def totalQty : List Resting → UInt64
  | [] => 0
  | o :: os => o.qty.toUInt64 + totalQty os

/-- A level as its observers see it. -/
def PriceLevel.view (l : PriceLevel) : LevelView :=
  ⟨l.price, totalQty l.orders, UInt32.ofNat l.orders.length, l.orders.map fun o => (o.id, o.qty)⟩

end Spec

end Pricetime
