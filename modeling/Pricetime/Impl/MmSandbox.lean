import Pricetime.Impl.MarketMaker
import Pricetime.Impl.QueuePosition
import Pricetime.Impl.Replayer

/-!
# The market-making sandbox

`step` is what the handler of `mm_sandbox` does with a message; it answers
with the sides on which it places the simulated order. A price that is snapped
to a grid of zero ticks is `none`.
-/

namespace Pricetime

open Itch (Replayer MsgType be32 be64)

/-! ## Events -/

/-- What a message does to the order it is about, if that rests in a book. -/
structure OrderEvent where
  isExecution : Bool := false
  id : OrderId
  price : Price
  restingSide : Side
  shares : Qty
  deriving DecidableEq, Repr

section Books

variable {L M : Type} [Ladder L] [IdMap M]

def peekEvent (books : MultiBook L M) (m : List UInt8) : Option (Option OrderEvent) := do
  let type ← m[0]?
  if ¬ (type = 'E'.toUInt8 ∨ type = 'C'.toUInt8 ∨ type = 'X'.toUInt8 ∨ type = 'D'.toUInt8 ∨ type = 'U'.toUInt8) then
    some none
  else do
    let ref ← be64 m 11
    match ← books.bookForOrder ref with
    | none => some none
    | some p =>
      let b ← books.deref p
      match ← b.findOrder ref with
      | none => some none
      | some o =>
        let o := b.heap.order o
        let ev : OrderEvent := { id := ref, price := o.price, restingSide := o.side, shares := o.qty }
        if type = 'E'.toUInt8 ∨ type = 'C'.toUInt8 then do
          let shares ← be32 m 19
          some (some { ev with isExecution := true, shares })
        else if type = 'X'.toUInt8 then do
          let shares ← be32 m 19
          some (some { ev with shares })
        else some (some ev)

/-- The walk of `orders_at_level` over the levels of a side. -/
def ordersAt (s : Side) (p : Price) : List LevelView → AheadMap
  | [] => []
  | lvl :: lvls =>
    let past := if s = .bid then decide (lvl.price < p) else decide (lvl.price > p)
    if past then []
    else if lvl.price = p then lvl.orders.foldl (fun out o => AheadMap.emplace out o.1 o.2) []
    else ordersAt s p lvls

def ordersAtLevel (b : OrderBook L M) (s : Side) (p : Price) : Option AheadMap := (b.walk s).map (ordersAt s p)

end Books

/-! ## Quotes -/

structure SandboxConfig where
  symbol : Symbol
  mm : MarketMakerConfig := { halfSpreadTicks := 1 }
  queueModel : Bool := true
  tick : Price := 100
  deriving DecidableEq, Repr

/-- `((p % tick) + tick) % tick`. -/
def offGrid (p tick : Price) : Option Price := if tick = 0 then none else some ((p % tick + tick) % tick)

def snapBid (p tick : Price) : Option Price := (offGrid p tick).map fun r => p - r

def snapAsk (p tick : Price) : Option Price := (offGrid p tick).map fun r => if r = 0 then p else p + (tick - r)

structure MmSandbox where
  cfg : SandboxConfig
  rep : Replayer MapLadder OpenAddressIdMap
  mm : MarketMaker
  ourBid : QueuePosition := {}
  ourAsk : QueuePosition := {}
  midUpdates : UInt64 := 0
  printsSeen : UInt64 := 0
  requotes : UInt64 := 0
  lastMid : Price := 0
  haveMid : Bool := false

namespace MmSandbox

def new (cfg : SandboxConfig) : Option MmSandbox := do
  let rep ← Replayer.new {}
  some { cfg, rep := rep.trackOnly [cfg.symbol], mm := { cfg := cfg.mm } }

/-- `our_bid` or `our_ask`. -/
def our (s : MmSandbox) : Side → QueuePosition
  | .bid => s.ourBid
  | .ask => s.ourAsk

def setOur (s : MmSandbox) (side : Side) (q : QueuePosition) : MmSandbox :=
  match side with
  | .bid => { s with ourBid := q }
  | .ask => { s with ourAsk := q }

/-- What the fill model makes of an event. -/
def onEvent (s : MmSandbox) (ev : OrderEvent) (midBefore : Price) : Option MmSandbox :=
  let s := if ev.isExecution then { s with printsSeen := s.printsSeen + 1 } else s
  let ts := s.rep.stats.lastTimestamp
  let fillAt (s : MmSandbox) (side : Side) (price : Price) (qty : Qty) : MmSandbox :=
    { s with mm := s.mm.onFill { side, price, qty, timestamp := ts, midAtFill := midBefore } }
  if s.cfg.queueModel then
    let q := s.our ev.restingSide
    if ev.isExecution ∧ q.active ∧ q.price = ev.price ∧ q.atFront then
      let (fill, q) := q.takeFill ev.shares
      let s := s.setOur ev.restingSide q
      some (if fill > 0 then fillAt s ev.restingSide ev.price fill else s)
    else
      some { s with
        ourBid := s.ourBid.onSharesRemoved ev.id ev.shares
        ourAsk := s.ourAsk.onSharesRemoved ev.id ev.shares }
  else if ev.isExecution then do
    let fill := if ev.shares < s.cfg.mm.quoteSize then ev.shares else s.cfg.mm.quoteSize
    let obid ← snapBid (s.mm.bidQuote midBefore) s.cfg.tick
    let oask ← snapAsk (s.mm.askQuote midBefore) s.cfg.tick
    some <|
      if ev.restingSide = .bid ∧ s.mm.wantsBid ∧ obid ≥ ev.price then fillAt s .bid obid fill
      else if ev.restingSide = .ask ∧ s.mm.wantsAsk ∧ oask ≤ ev.price then fillAt s .ask oask fill
      else s
  else some s

/-- A side of the re-quote: whether it is placed, and the state after. -/
def requote (s : MmSandbox) (book : OrderBook MapLadder OpenAddressIdMap) (side : Side) (wants : Bool) (want : Price) :
    Option (List Side × MmSandbox) :=
  let q := s.our side
  if wants ∧ (¬ q.active ∨ q.price ≠ want) then do
    let ahead ← ordersAtLevel book side want
    let q := q.cancel.place want side s.cfg.mm.quoteSize ahead
    some ([side], { s.setOur side q with requotes := s.requotes + 1 })
  else some ([], s)

/-- The handler from the refresh of the mid on. -/
def refresh (s : MmSandbox) : Option (List Side × MmSandbox) :=
  match s.rep.books.find s.cfg.symbol with
  | none => some ([], s)
  | some book =>
    match book.best .bid, book.best .ask with
    | some bid, some ask =>
      let mid := (bid.price + ask.price) / 2
      let s :=
        if ¬ s.haveMid ∨ mid ≠ s.lastMid then
          { s with mm := s.mm.onMid mid s.rep.stats.lastTimestamp, midUpdates := s.midUpdates + 1 }
        else s
      let s := { s with lastMid := mid, haveMid := true }
      if s.cfg.queueModel then do
        let wantBid ← snapBid (s.mm.bidQuote mid) s.cfg.tick
        let (bids, s) ← s.requote book .bid s.mm.wantsBid wantBid
        let wantAsk ← snapAsk (s.mm.askQuote mid) s.cfg.tick
        let (asks, s) ← s.requote book .ask s.mm.wantsAsk wantAsk
        some (bids ++ asks, s)
      else some ([], s)
    | _, _ => some ([], s)

def step (s : MmSandbox) (m : List UInt8) : Option (List Side × MmSandbox) := do
  let ev ← peekEvent s.rep.books m
  let midBefore := s.lastMid
  let hadMid := s.haveMid
  let (_, rep) ← s.rep.apply m
  let s := { s with rep }
  let s ←
    match ev with
    | some ev => if hadMid then s.onEvent ev midBefore else some s
    | none => some s
  s.refresh

end MmSandbox

end Pricetime
