import Pricetime.Impl.Replayer

/-!
# Book statistics

`StatsObserver` is the observer of `book_stats`: what it collects from the
calls of a replayer. An unordered map is a function here, `none` for the keys
that have no entry.
-/

namespace Pricetime

open Itch (ReplayEvent)

/-- The upper bounds of the lifetime buckets. -/
def kLifetime : List UInt64 :=
  [1000, 10000, 100000, 1000000, 10000000, 100000000, 1000000000, 10000000000, 60000000000, 600000000000, ~~~0]

structure SymbolCounters where
  adds : UInt64 := 0
  removes : UInt64 := 0
  executions : UInt64 := 0
  deriving DecidableEq, Repr

abbrev UnorderedMap (K V : Type) := K → Option V

/-- A change of the value at a key, which is `v` if there is none yet. -/
def UnorderedMap.change {K V : Type} [DecidableEq K] (m : UnorderedMap K V) (k : K) (v : V) (f : V → V) :
    UnorderedMap K V := Function.update m k (some (f ((m k).getD v)))

structure StatsObserver where
  sym : UnorderedMap UInt64 SymbolCounters := fun _ => none
  sizeHist : UnorderedMap Qty UInt64 := fun _ => none
  birth : UnorderedMap OrderId UInt64 := fun _ => none
  owner : UnorderedMap OrderId UInt64 := fun _ => none
  lifetimes : List UInt64 := []
  lifetimeHist : List UInt64 := kLifetime.map fun _ => 0
  lifetimeTotal : UInt64 := 0
  lifetimeN : UInt64 := 0
  adds : UInt64 := 0
  removes : UInt64 := 0
  executions : UInt64 := 0
  replaces : UInt64 := 0
  totalAddedShares : UInt64 := 0
  executedShares : UInt64 := 0

namespace StatsObserver

def kLifetimeSample : OrderId := 64

def onAdded (o : StatsObserver) (id : OrderId) (sym : Symbol) (qty : Qty) (ts : UInt64) : StatsObserver :=
  { o with
    sym := o.sym.change sym.bits {} fun c => { c with adds := c.adds + 1 }
    sizeHist := o.sizeHist.change qty 0 (· + 1)
    totalAddedShares := o.totalAddedShares + qty.toUInt64
    adds := o.adds + 1
    birth := if id % kLifetimeSample = 0 then Function.update o.birth id (some ts) else o.birth
    owner := Function.update o.owner id (some sym.bits) }

def onReplaced (o : StatsObserver) (oldId newId : OrderId) (qty : Qty) (ts : UInt64) : StatsObserver :=
  let bits := (o.owner oldId).getD 0
  let o :=
    if bits ≠ 0 then { o with
      sym := o.sym.change bits {} fun c => { c with adds := c.adds + 1 }
      owner := Function.update o.owner newId (some bits) }
    else o
  { o with
    sizeHist := o.sizeHist.change qty 0 (· + 1)
    totalAddedShares := o.totalAddedShares + qty.toUInt64
    adds := o.adds + 1
    replaces := o.replaces + 1
    birth := if newId % kLifetimeSample = 0 then Function.update o.birth newId (some ts) else o.birth }

def onReduced (o : StatsObserver) (id : OrderId) (qty : Qty) (executed : Bool) : StatsObserver :=
  let o :=
    match o.owner id with
    | some bits =>
      if executed then { o with sym := o.sym.change bits {} fun c => { c with executions := c.executions + 1 } } else o
    | none => o
  if executed then
    { o with executedShares := o.executedShares + qty.toUInt64, executions := o.executions + 1 }
  else o

/-- The end of a sampled order. -/
def onLifetime (o : StatsObserver) (life : UInt64) : StatsObserver :=
  { o with
    lifetimeTotal := o.lifetimeTotal + life
    lifetimeN := o.lifetimeN + 1
    lifetimes := o.lifetimes ++ [life]
    lifetimeHist :=
      match kLifetime.findIdx? fun upper => life < upper with
      | some i => o.lifetimeHist.modify i (· + 1)
      | none => o.lifetimeHist }

def onRemoved (o : StatsObserver) (id : OrderId) (ts : UInt64) : StatsObserver :=
  let o :=
    match o.owner id with
    | some bits => { o with
        sym := o.sym.change bits {} fun c => { c with removes := c.removes + 1 }
        owner := Function.update o.owner id none }
    | none => o
  let o := { o with removes := o.removes + 1 }
  match o.birth id with
  | none => o
  | some b =>
    let o := if ts ≥ b then o.onLifetime (ts - b) else o
    { o with birth := Function.update o.birth id none }

/-- The hooks. -/
def hear (o : StatsObserver) : ReplayEvent → StatsObserver
  | .added reference symbol _ _ shares timestamp => o.onAdded reference symbol shares timestamp
  | .replaced original fresh _ shares timestamp => o.onReplaced original fresh shares timestamp
  | .reduced reference taken isExecution _ => o.onReduced reference taken isExecution
  | .removed reference timestamp => o.onRemoved reference timestamp

end StatsObserver

/-- One message, replayed with the observer. -/
def Itch.Replayer.applyObserved {L M : Type} [Ladder L] [IdMap M] (s : Replayer L M × StatsObserver) (msg : List UInt8) :
    Option (List ReplayEvent × (Replayer L M × StatsObserver)) := do
  let (out, r) ← s.1.apply msg
  some (out, (r, out.foldl StatsObserver.hear s.2))

end Pricetime
