import Pricetime.Impl.Types

/-!
# Price ladders

The three ladders of the book, `MapLadder`, `PooledMapLadder` and
`DenseLadder`, behind the interface the book uses them through (`Ladder`).

A ladder owns the level nodes of both sides. The `k`-th node it creates on a
side (the `k`-th slot of a dense side) is at address `2 * k`, plus one on the
ask side. The allocator never hands out the address of a node twice, and a
destroyed node's memory is not written.

So a level that has been destroyed can still be read here. The program has
orders in such a level only after `order_count` has wrapped, with 2 ^ 32 orders
at one price. What is proved of a book however many orders rest, or with no
bound on them, is about this heap from there on; the node of a `std::map` is
gone then.
-/

namespace Pricetime

/-- The interface of a ladder. `getOrCreate` may write the level it returns,
and `levels` is the walk of `for_each_level`, best to worst. -/
class Ladder (L : Type) where
  validPrice : L → Price → Bool
  getOrCreate : L → Levels → Side → Price → Option (LevelPtr × L × Levels)
  onLevelEmpty : L → Levels → Side → LevelPtr → Option L
  best : L → Side → Option LevelPtr
  levels : L → Levels → Side → Option (List LevelPtr)

namespace Side

/-- `static_cast<std::size_t>(s)`. -/
def index : Side → Nat
  | .bid => 0
  | .ask => 1

/-- Whether price `a` is strictly better than `b`: the order of each side's
tree (`std::greater` for bids, `std::less` for asks). -/
def better (s : Side) (a b : Price) : Bool :=
  match s with
  | .bid => decide (a > b)
  | .ask => decide (a < b)

end Side

/-- The address of the `k`-th level node of a side. -/
def levelAddr (s : Side) (k : Nat) : LevelPtr := 2 * k + s.index

/-- A `std::map`, as its nodes in the order of its keys. -/
abbrev StdMap (K V : Type) := List (K × V)

namespace StdMap

variable {K V : Type} [DecidableEq K]

def find (m : StdMap K V) (k : K) : Option V := (m.find? fun kv => kv.1 = k).map Prod.snd

/-- A new node, before the first one whose key is not less than its own. -/
def emplace (lt : K → K → Bool) : StdMap K V → K → V → StdMap K V
  | [], k, v => [(k, v)]
  | kv :: m, k, v => if lt kv.1 k then kv :: emplace lt m k v else (k, v) :: kv :: m

def erase (m : StdMap K V) (k : K) : StdMap K V := m.eraseP fun kv => kv.1 = k

end StdMap

/-- One side of a `MapLadder`: its tree, and the number of nodes ever made. -/
structure MapSide where
  nodes : StdMap Price LevelPtr := []
  created : Nat := 0
  deriving DecidableEq, Repr

namespace MapSide

def getOrCreateIn (m : MapSide) (levels : Levels) (s : Side) (p : Price) :
    LevelPtr × MapSide × Levels :=
  match m.nodes.find p with
  | some q => (q, m, levels)
  | none =>
    let q := levelAddr s m.created
    (q, ⟨m.nodes.emplace s.better p q, m.created + 1⟩, Function.update levels q { price := p })

end MapSide

/-- Tree-backed ladder; a level's node is destroyed when it empties. -/
structure MapLadder where
  bids : MapSide := {}
  asks : MapSide := {}
  deriving DecidableEq, Repr

namespace MapLadder

def side (l : MapLadder) : Side → MapSide
  | .bid => l.bids
  | .ask => l.asks

def setSide (l : MapLadder) (s : Side) (m : MapSide) : MapLadder :=
  match s with
  | .bid => { l with bids := m }
  | .ask => { l with asks := m }

def getOrCreate (l : MapLadder) (levels : Levels) (s : Side) (p : Price) :
    LevelPtr × MapLadder × Levels :=
  let (q, m, levels) := (l.side s).getOrCreateIn levels s p
  (q, l.setSide s m, levels)

def onLevelEmpty (l : MapLadder) (levels : Levels) (s : Side) (lvl : LevelPtr) : MapLadder :=
  l.setSide s { l.side s with nodes := (l.side s).nodes.erase (levels lvl).price }

def best (l : MapLadder) (s : Side) : Option LevelPtr := (l.side s).nodes.head?.map Prod.snd

def walk (l : MapLadder) (s : Side) : List LevelPtr := (l.side s).nodes.map Prod.snd

end MapLadder

instance : Ladder MapLadder where
  validPrice _ _ := true
  getOrCreate l levels s p := some (l.getOrCreate levels s p)
  onLevelEmpty l levels s lvl := some (l.onLevelEmpty levels s lvl)
  best := MapLadder.best
  levels l _ s := some (l.walk s)

/-- One side of a `PooledMapLadder`: `cache` holds the parked nodes, the last
parked first. -/
structure PooledSide where
  nodes : StdMap Price LevelPtr := []
  created : Nat := 0
  cache : List LevelPtr := []
  deriving DecidableEq, Repr

namespace PooledSide

def kMaxCached : Nat := 4096

def getIn (m : PooledSide) (levels : Levels) (s : Side) (p : Price) :
    LevelPtr × PooledSide × Levels :=
  match m.nodes.find p with
  | some q => (q, m, levels)
  | none =>
    match m.cache with
    | q :: cache =>
      (q, { m with nodes := m.nodes.emplace s.better p q, cache := cache },
        Function.update levels q { price := p })
    | [] =>
      let q := levelAddr s m.created
      (q, { m with nodes := m.nodes.emplace s.better p q, created := m.created + 1 },
        Function.update levels q { price := p })

def park (m : PooledSide) (p : Price) : PooledSide :=
  match m.nodes.find p with
  | some q =>
    { m with
      nodes := m.nodes.erase p
      cache := if m.cache.length < kMaxCached then q :: m.cache else m.cache }
  | none => m

end PooledSide

/-- Tree-backed ladder that recycles the nodes of emptied levels. -/
structure PooledMapLadder where
  bids : PooledSide := {}
  asks : PooledSide := {}
  deriving DecidableEq, Repr

namespace PooledMapLadder

def side (l : PooledMapLadder) : Side → PooledSide
  | .bid => l.bids
  | .ask => l.asks

def setSide (l : PooledMapLadder) (s : Side) (m : PooledSide) : PooledMapLadder :=
  match s with
  | .bid => { l with bids := m }
  | .ask => { l with asks := m }

def getOrCreate (l : PooledMapLadder) (levels : Levels) (s : Side) (p : Price) :
    LevelPtr × PooledMapLadder × Levels :=
  let (q, m, levels) := (l.side s).getIn levels s p
  (q, l.setSide s m, levels)

def onLevelEmpty (l : PooledMapLadder) (levels : Levels) (s : Side) (lvl : LevelPtr) :
    PooledMapLadder :=
  l.setSide s ((l.side s).park (levels lvl).price)

def best (l : PooledMapLadder) (s : Side) : Option LevelPtr := (l.side s).nodes.head?.map Prod.snd

def walk (l : PooledMapLadder) (s : Side) : List LevelPtr := (l.side s).nodes.map Prod.snd

end PooledMapLadder

instance : Ladder PooledMapLadder where
  validPrice _ _ := true
  getOrCreate l levels s p := some (l.getOrCreate levels s p)
  onLevelEmpty l levels s lvl := some (l.onLevelEmpty levels s lvl)
  best := PooledMapLadder.best
  levels l _ s := some (l.walk s)

/-- One side of a `DenseLadder`: the cached best index (`kNone` is `none`)
and the number of active levels. Its array is the level nodes of the side. -/
structure SideLadder where
  best : Option Nat := none
  activeLevels : UInt32 := 0
  deriving DecidableEq, Repr

/-- Contiguous ladder: level `p` of a side is slot `p - min` of its array. -/
structure DenseLadder where
  min : Price
  max : Price
  bids : SideLadder := {}
  asks : SideLadder := {}
  deriving DecidableEq, Repr

namespace DenseLadder

/-- The constructor; `none` where `max - min + 1` overflows or the assertion
on the bounds fails. -/
def new (min max : Price) : Option DenseLadder :=
  if min ≤ max ∧ max.toInt - min.toInt + 1 < 2 ^ 63 then some { min := min, max := max } else none

def side (l : DenseLadder) : Side → SideLadder
  | .bid => l.bids
  | .ask => l.asks

def setSide (l : DenseLadder) (s : Side) (m : SideLadder) : DenseLadder :=
  match s with
  | .bid => { l with bids := m }
  | .ask => { l with asks := m }

def validPrice (l : DenseLadder) (p : Price) : Bool := decide (p ≥ l.min) && decide (p ≤ l.max)

/-- The length of each side's array. -/
def span (l : DenseLadder) : Nat := (l.max.toInt - l.min.toInt + 1).toNat

/-- The slot of a price; outside the array it is undefined. -/
def indexOf (l : DenseLadder) (p : Price) : Option Nat :=
  if l.validPrice p then some (p.toInt - l.min.toInt).toNat else none

def better (s : Side) (a b : Nat) : Bool :=
  match s with
  | .bid => decide (a > b)
  | .ask => decide (a < b)

/-- The slot after `i` on the way to worse prices. -/
def next (l : DenseLadder) (s : Side) (i : Nat) : Option Nat :=
  match s with
  | .bid => if i = 0 then none else some (i - 1)
  | .ask => if i + 1 < l.span then some (i + 1) else none

def getOrCreate (l : DenseLadder) (levels : Levels) (s : Side) (p : Price) :
    Option (LevelPtr × DenseLadder × Levels) := do
  let sl := l.side s
  let idx ← l.indexOf p
  let lvl := levelAddr s idx
  if (levels lvl).orderCount = 0 then
    let best := match sl.best with
      | none => idx
      | some b => if better s idx b then idx else b
    some (lvl, l.setSide s ⟨some best, sl.activeLevels + 1⟩,
      Function.update levels lvl { levels lvl with price := p })
  else some (lvl, l, levels)

/-- The scan of `on_level_empty`: the first active slot after `i`. -/
def scan (l : DenseLadder) (levels : Levels) (s : Side) : Nat → Nat → Option Nat
  | 0, _ => none
  | fuel + 1, i => do
    let i ← l.next s i
    if (levels (levelAddr s i)).orderCount = 0 then scan l levels s fuel i else some i

def onLevelEmpty (l : DenseLadder) (levels : Levels) (s : Side) (lvl : LevelPtr) :
    Option DenseLadder := do
  let sl := l.side s
  let idx ← l.indexOf (levels lvl).price
  let active := sl.activeLevels - 1
  if active = 0 then some (l.setSide s ⟨none, active⟩)
  else if sl.best ≠ some idx then some (l.setSide s ⟨sl.best, active⟩)
  else do
    let i ← l.scan levels s l.span idx
    some (l.setSide s ⟨some i, active⟩)

def best (l : DenseLadder) (s : Side) : Option LevelPtr := (l.side s).best.map (levelAddr s)

/-- The walk of `for_each_level` from slot `i`, with `left` active levels not
seen yet. It leaves the array when it is past the last slot with some left. -/
def walk (l : DenseLadder) (levels : Levels) (s : Side) : Nat → UInt32 → Option Nat →
    Option (List LevelPtr)
  | fuel, left, i =>
    if left = 0 then some []
    else match fuel, i with
      | fuel + 1, some i => do
        let lvl := levelAddr s i
        if (levels lvl).orderCount = 0 then walk l levels s fuel left (l.next s i)
        else do
          let rest ← walk l levels s fuel (left - 1) (l.next s i)
          some (lvl :: rest)
      | _, _ => none

def forEachLevel (l : DenseLadder) (levels : Levels) (s : Side) : Option (List LevelPtr) :=
  match (l.side s).best with
  | none => some []
  | some i => l.walk levels s l.span (l.side s).activeLevels (some i)

end DenseLadder

instance : Ladder DenseLadder where
  validPrice := DenseLadder.validPrice
  getOrCreate := DenseLadder.getOrCreate
  onLevelEmpty := DenseLadder.onLevelEmpty
  best := DenseLadder.best
  levels := DenseLadder.forEachLevel

end Pricetime
