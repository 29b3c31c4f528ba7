import Mathlib

/-!
# Types of the book

The scalar types keep their widths: prices are signed 64-bit ticks, ids are
unsigned 64-bit, quantities unsigned 32-bit, and aggregates of quantities
unsigned 64-bit, so that an arithmetic operation wraps here where it wraps in
the program.

Nodes live in a heap (`Heap`): an `Order*` is an `OrderPtr` and a `Level*` a
`LevelPtr`, both nullable (`Option`) where the program tests for null. The
address of a chunk's node is its position in the arena, and a level's address
is fixed by the ladder that owns it.

A computation that may have undefined behaviour or not end (a null or
out-of-range access, a loop that runs forever) has a result in `Option`, and
`none` means just that; rejections are ordinary results (`Result`).
-/

namespace Pricetime

abbrev Price := Int64
abbrev Qty := UInt32
abbrev OrderId := UInt64
abbrev ParticipantId := UInt16

inductive Side where
  | bid
  | ask
  deriving DecidableEq, Repr

def opposite : Side → Side
  | .bid => .ask
  | .ask => .bid

abbrev OrderPtr := Nat
abbrev LevelPtr := Nat

/-- Book order node. `prev`, `next` link it into its level's queue; `next`
also chains released nodes in the pool's free list. -/
structure Order where
  id : OrderId := 0
  price : Price := 0
  qty : Qty := 0
  side : Side := .bid
  participant : ParticipantId := 0
  prev : Option OrderPtr := none
  next : Option OrderPtr := none
  level : Option LevelPtr := none
  deriving DecidableEq, Repr

/-- One fill between a resting order and the incoming one. -/
structure Execution where
  restingId : OrderId
  aggressorId : OrderId
  price : Price
  qty : Qty
  deriving DecidableEq, Repr

inductive Result where
  | ok
  | rejectedBadId
  | rejectedBadQty
  | rejectedBadPrice
  | rejectedDuplicateId
  | rejectedUnknownId
  | rejectedNoLiquidity
  deriving DecidableEq, Repr

inductive SelfTradePolicy where
  | none
  | cancelResting
  | cancelAggressor
  | cancelBoth
  deriving DecidableEq, Repr

/-- Share accounting, modulo `2^64`. -/
structure Counters where
  addedQty : UInt64 := 0
  tradedQty : UInt64 := 0
  canceledQty : UInt64 := 0
  executedQty : UInt64 := 0
  selfTradesPrevented : UInt64 := 0
  deriving DecidableEq, Repr

/-- Price level: a queue of resting orders (`head` oldest) and aggregates. -/
structure Level where
  price : Price := 0
  totalQty : UInt64 := 0
  orderCount : UInt32 := 0
  head : Option OrderPtr := none
  tail : Option OrderPtr := none
  deriving DecidableEq, Repr

/-- The level nodes, by address. -/
abbrev Levels := LevelPtr → Level

/-- The order and level nodes, by address. -/
structure Heap where
  order : OrderPtr → Order := fun _ => {}
  level : Levels := fun _ => {}

/-- Whether an aggressor on side `s` with limit `price` reaches a level at
price `p`. -/
def crosses (s : Side) (price p : Price) : Bool :=
  match s with
  | .bid => decide (price ≥ p)
  | .ask => decide (price ≤ p)

/-- Whether an aggressor's limit, if it has one, reaches a level's price. -/
def reaches (s : Side) (limit : Option Price) (p : Price) : Bool :=
  match limit with
  | none => true
  | some price => crosses s price p

end Pricetime
