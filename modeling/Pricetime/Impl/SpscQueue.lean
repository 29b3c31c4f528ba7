import Mathlib

/-!
# The single-producer, single-consumer ring

A call of `try_push` or `try_pop` is split into its steps: the load of the own
index and its test against the cached one, the refresh of that, the access to
the slot, and the store of the index. `step` is one step of one side, which
starts a call if it is between two. The steps are sequentially consistent.

`none` is an access out of range, or a constructor that does not return.
-/

namespace Pricetime

/-- Where the producer is in `try_push`, and its locals there. -/
inductive Producer (T : Type) where
  | idle
  | refresh (value : T) (head next : Nat)
  | write (value : T) (head next : Nat)
  | publish (value : T) (next : Nat)
  deriving DecidableEq, Repr

/-- Where the consumer is in `try_pop`, and its locals there. -/
inductive Consumer (T : Type) where
  | idle
  | refresh (tail : Nat)
  | read (tail : Nat)
  | publish (tail : Nat) (out : T)
  deriving DecidableEq, Repr

structure SpscQueue (T : Type) where
  slots : List T
  mask : Nat
  head : Nat := 0
  cachedTail : Nat := 0
  tail : Nat := 0
  cachedHead : Nat := 0
  producer : Producer T := .idle
  consumer : Consumer T := .idle
  deriving DecidableEq, Repr

/-- What a step shows of the call it is a step of: `pushed` and `popped` are
the stores that let the other side see, `full` and `empty` the reloads after
which the call fails. -/
inductive QueueEvent (T : Type) where
  | quiet
  | pushed (value : T)
  | full
  | popped (value : T)
  | empty
  deriving DecidableEq, Repr

/-- A side takes its next step; `value` is for the call that it starts, if it
starts one. -/
inductive QueueOp (T : Type) where
  | producer (value : T)
  | consumer
  deriving DecidableEq, Repr

namespace SpscQueue

variable {T : Type}

/-- The loop of `round_up_pow2`. -/
def doubleUpTo (n : UInt64) : Nat → UInt64 → Option UInt64
  | 0, _ => none
  | fuel + 1, p => if p < n then doubleUpTo n fuel (p <<< 1) else some p

/-- After 64 doublings `p` is 0 and stays it, so that the loop ends by then or
never. -/
def roundUpPow2 (n : UInt64) : Option UInt64 := doubleUpTo n 65 1

/-- `zero` is what the slots are made with. -/
def new (zero : T) (capacity : UInt64) : Option (SpscQueue T) := do
  let p ← roundUpPow2 (capacity + 1)
  let mask := (p - 1).toNat
  some { slots := List.replicate (mask + 1) zero, mask }

def capacity (q : SpscQueue T) : Nat := q.mask

/-- A step of `try_push`. -/
def tryPush (q : SpscQueue T) (value : T) : Option (QueueEvent T × SpscQueue T) :=
  match q.producer with
  | .idle =>
    let head := q.head
    let next := (head + 1) &&& q.mask
    if next = q.cachedTail then some (.quiet, { q with producer := .refresh value head next })
    else some (.quiet, { q with producer := .write value head next })
  | .refresh value head next =>
    let q := { q with cachedTail := q.tail }
    if next = q.cachedTail then some (.full, { q with producer := .idle })
    else some (.quiet, { q with producer := .write value head next })
  | .write value head next =>
    if head < q.slots.length then
      some (.quiet, { q with slots := q.slots.set head value, producer := .publish value next })
    else none
  | .publish value next => some (.pushed value, { q with head := next, producer := .idle })

/-- A step of `try_pop`. -/
def tryPop (q : SpscQueue T) : Option (QueueEvent T × SpscQueue T) :=
  match q.consumer with
  | .idle =>
    let tail := q.tail
    if tail = q.cachedHead then some (.quiet, { q with consumer := .refresh tail })
    else some (.quiet, { q with consumer := .read tail })
  | .refresh tail =>
    let q := { q with cachedHead := q.head }
    if tail = q.cachedHead then some (.empty, { q with consumer := .idle })
    else some (.quiet, { q with consumer := .read tail })
  | .read tail => do
    let out ← q.slots[tail]?
    some (.quiet, { q with consumer := .publish tail out })
  | .publish tail out => some (.popped out, { q with tail := (tail + 1) &&& q.mask, consumer := .idle })

def step (q : SpscQueue T) : QueueOp T → Option (QueueEvent T × SpscQueue T)
  | .producer value => q.tryPush value
  | .consumer => q.tryPop

/-- `(head - tail) & mask_`, where the difference of two indices wraps. -/
def sizeApprox (q : SpscQueue T) : Nat := (q.head + (q.mask + 1) - q.tail) &&& q.mask

/-- The slots from `tail_` up to `head_`. -/
def held (q : SpscQueue T) : List Nat := (List.range q.sizeApprox).map fun i => (q.tail + i) &&& q.mask

end SpscQueue

end Pricetime
