import Pricetime.Impl.Types

/-!
# Queue positions

A `QueuePosition` is a simulated order at the back of a level, with the orders
that were there before it.
-/

namespace Pricetime

/-- A map from ids to open quantities, as the list of its entries. -/
abbrev AheadMap := List (OrderId × Qty)

/-- An entry for an id that has none. -/
def AheadMap.emplace (m : AheadMap) (id : OrderId) (qty : Qty) : AheadMap :=
  if m.any fun kv => kv.1 = id then m else m ++ [(id, qty)]

structure QueuePosition where
  price : Price := 0
  side : Side := .bid
  remaining : Qty := 0
  sharesAhead : UInt64 := 0
  ahead : AheadMap := []
  active : Bool := false
  deriving DecidableEq, Repr

namespace QueuePosition

def place (q : QueuePosition) (price : Price) (side : Side) (qty : Qty) (ahead : AheadMap) : QueuePosition :=
  { q with
    price, side, remaining := qty, ahead
    sharesAhead := ahead.foldl (fun n kv => n + kv.2.toUInt64) 0
    active := true }

def cancel (q : QueuePosition) : QueuePosition := { q with active := false, ahead := [], sharesAhead := 0 }

def atFront (q : QueuePosition) : Bool := q.active && q.ahead.isEmpty

def onSharesRemoved (q : QueuePosition) (id : OrderId) (qty : Qty) : QueuePosition :=
  match q.ahead.find? fun kv => kv.1 = id with
  | none => q
  | some kv =>
    let cut := if qty < kv.2 then qty else kv.2
    let left := kv.2 - cut
    { q with
      sharesAhead := q.sharesAhead - cut.toUInt64
      ahead :=
        if left = 0 then q.ahead.filter fun kv => kv.1 ≠ id
        else q.ahead.map fun kv => if kv.1 = id then (id, left) else kv }

/-- The quantity filled, and the order after it. -/
def takeFill (q : QueuePosition) (printQty : Qty) : Qty × QueuePosition :=
  let fill := if printQty < q.remaining then printQty else q.remaining
  let remaining := q.remaining - fill
  (fill, { q with remaining, active := if remaining = 0 then false else q.active })

end QueuePosition

end Pricetime
