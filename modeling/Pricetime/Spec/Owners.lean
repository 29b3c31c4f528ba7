import Pricetime.Impl.Book

/-!
# Whose orders are whose

An order belongs to the participant it was entered with, and a replacement to
the owner of the order that it replaces. This is read off the operations and
their results alone: no book keeps it.
-/

namespace Pricetime

namespace OrderBook.Op

/-- The id that an operation enters an order under. -/
def entered : Op → Option OrderId
  | .addLimitAs _ id _ _ _ => some id
  | .addIocAs _ id _ _ _ => some id
  | .addFokAs _ id _ _ _ => some id
  | .addMarketAs _ id _ _ => some id
  | .replace _ newId _ _ => some newId
  | .insertPassive id _ _ _ => some id
  | _ => none

/-- The order that an operation replaces. -/
def replaced : Op → Option OrderId
  | .replace oldId _ _ _ => some oldId
  | _ => none

/-- The id and the quantity of an order that rests if it is not filled. -/
def limitOrder : Op → Option (OrderId × Qty)
  | .addLimitAs _ id _ _ qty => some (id, qty)
  | .replace _ newId _ newQty => some (newId, newQty)
  | _ => none

/-- The side, the limit and the quantity of an order that never rests. -/
def taker : Op → Option (Side × Option Price × Qty)
  | .addIocAs _ _ side price qty => some (side, some price, qty)
  | .addFokAs _ _ side price qty => some (side, some price, qty)
  | .addMarketAs _ _ side qty => some (side, none, qty)
  | _ => none

/-- Whether an operation sets the policy. -/
def isPolicy : Op → Bool
  | .setSelfTradePolicy _ => true
  | _ => false

/-- Whether an operation adds or replaces an order that may trade. -/
def isEntry (op : Op) : Bool := op.limitOrder.isSome || op.taker.isSome

end OrderBook.Op

namespace Spec

open OrderBook (Op)

/-- The owner of the last order entered under each id. -/
abbrev Owners := OrderId → ParticipantId

namespace Owners

/-- The owner of the order that an operation enters. -/
def actor (w : Owners) : Op → ParticipantId
  | .addLimitAs actor _ _ _ _ => actor
  | .addIocAs actor _ _ _ _ => actor
  | .addFokAs actor _ _ _ _ => actor
  | .addMarketAs actor _ _ _ => actor
  | .replace oldId _ _ _ => w oldId
  | _ => 0

/-- The owners after an operation, known by what it answers. -/
def after (w : Owners) (op : Op) (reply : Reply) : Owners :=
  match op.entered with
  | some id => if reply.result = .ok then Function.update w id (w.actor op) else w
  | none => w

end Owners

/-- The shares of a resting order that have been executed. -/
def filled (execs : List Execution) (id : OrderId) : Nat :=
  ((execs.filter fun e => e.restingId = id).map fun e => e.qty.toNat).sum

/-- The shares that have been executed. -/
def traded (execs : List Execution) : Nat := (execs.map fun e => e.qty.toNat).sum

end Spec

end Pricetime
