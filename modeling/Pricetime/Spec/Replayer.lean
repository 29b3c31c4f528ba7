import Pricetime.Impl.Replayer
import Pricetime.Spec.Book

/-!
# What the replayer is for

`Spec.Replayer` keeps an abstract book for every symbol, empty until an order
rests in it, and knows the symbol of every order. A message is a total
function on it.

`Spec.FeedOrder` is the flat view of the same: the orders on the feed, in the
order of their arrival, with no books and no index. `FeedOrder.apply` is what
a message does to that list, and `FeedOrder.levels` what a symbol's side
looks like in it.
-/

namespace Pricetime

open Itch (Message AddOrder OrderReplace ReplayEvent ReplayStats)

namespace Spec

/-- `symbols` are those with a book, in the order of their creation. -/
structure MultiBook where
  symbols : List Symbol := []
  book : Symbol → Book := fun _ => {}
  owner : OrderId → Option Symbol := fun _ => none

namespace MultiBook

def see (m : MultiBook) (s : Symbol) : MultiBook :=
  if s ∈ m.symbols then m else { m with symbols := m.symbols ++ [s] }

def setBook (m : MultiBook) (s : Symbol) (b : Book) : MultiBook :=
  { m with book := Function.update m.book s b }

def noteOrder (m : MultiBook) (id : OrderId) (s : Symbol) : MultiBook :=
  if (m.owner id).isSome then m else { m with owner := Function.update m.owner id (some s) }

def forgetOrder (m : MultiBook) (id : OrderId) : MultiBook :=
  { m with owner := Function.update m.owner id none }

end MultiBook

structure Replayer where
  books : MultiBook := {}
  filter : List UInt64 := []
  stats : ReplayStats := {}

namespace Replayer

def tracked (r : Replayer) (s : Symbol) : Bool := r.filter.isEmpty || r.filter.contains s.bits

def setStats (r : Replayer) (f : ReplayStats → ReplayStats) : Replayer := { r with stats := f r.stats }

def onAdd (accepts : Price → Bool) (r : Replayer) (m : AddOrder) : List ReplayEvent × Replayer :=
  let r := r.setStats fun s => { s with lastTimestamp := m.timestamp }
  if !r.tracked m.symbol then
    ([], r.setStats fun s => { s with skippedSymbol := s.skippedSymbol + 1 })
  else
    let books := r.books.see m.symbol
    let (reply, b) := (books.book m.symbol).insertPassive accepts m.reference m.side m.price m.shares
    let books := books.setBook m.symbol b
    if reply.result = .ok then
      ([.added m.reference m.symbol m.side m.price m.shares m.timestamp],
        { r with books := books.noteOrder m.reference m.symbol }.setStats fun s =>
          { s with adds := s.adds + 1, sharesAdded := s.sharesAdded + m.shares.toUInt64 })
    else ([], { r with books })

def onReduced (r : Replayer) (timestamp : UInt64) (reference : OrderId) (shares : Qty)
    (isExecution : Bool) : List ReplayEvent × Replayer :=
  let r := r.setStats fun s => { s with lastTimestamp := timestamp }
  match r.books.owner reference with
  | none => ([], r.setStats fun s => { s with unknownReference := s.unknownReference + 1 })
  | some symbol =>
    let (reply, b) := (r.books.book symbol).consume reference shares isExecution
    let books := r.books.setBook symbol b
    let taken := reply.taken
    let r := { r with books }.setStats fun s =>
      if taken < shares then { s with clamped := s.clamped + 1 } else s
    let r := r.setStats fun s =>
      if isExecution then
        { s with executions := s.executions + 1, sharesExecuted := s.sharesExecuted + taken.toUInt64 }
      else { s with cancels := s.cancels + 1 }
    let reduced := ReplayEvent.reduced reference taken isExecution timestamp
    if (b.find reference).isSome then ([reduced], r)
    else ([reduced, .removed reference timestamp], { r with books := books.forgetOrder reference })

def onDelete (r : Replayer) (m : Itch.OrderDelete) : List ReplayEvent × Replayer :=
  let r := r.setStats fun s => { s with lastTimestamp := m.timestamp }
  match r.books.owner m.reference with
  | none => ([], r.setStats fun s => { s with unknownReference := s.unknownReference + 1 })
  | some symbol =>
    let (_, b) := (r.books.book symbol).cancel m.reference
    let books := (r.books.setBook symbol b).forgetOrder m.reference
    ([.removed m.reference m.timestamp],
      { r with books }.setStats fun s => { s with deletes := s.deletes + 1 })

def onReplace (accepts : Price → Bool) (r : Replayer) (m : OrderReplace) : List ReplayEvent × Replayer :=
  let r := r.setStats fun s => { s with lastTimestamp := m.timestamp }
  let unknown := r.setStats fun s => { s with unknownReference := s.unknownReference + 1 }
  match r.books.owner m.originalReference with
  | none => ([], unknown)
  | some symbol =>
    match (r.books.book symbol).find m.originalReference with
    | none => ([], unknown)
    | some original =>
      let (_, b) := (r.books.book symbol).cancel m.originalReference
      let books := (r.books.setBook symbol b).forgetOrder m.originalReference
      let (reply, b) := b.insertPassive accepts m.newReference original.side m.price m.shares
      let books := books.setBook symbol b
      let replaced := fun s : ReplayStats => { s with replaces := s.replaces + 1 }
      if reply.result = .ok then
        ([.replaced m.originalReference m.newReference m.price m.shares m.timestamp],
          ({ r with books := books.noteOrder m.newReference symbol }.setStats fun s =>
            { s with sharesAdded := s.sharesAdded + m.shares.toUInt64 }).setStats replaced)
      else ([], { r with books }.setStats replaced)

def dispatch (accepts : Price → Bool) (r : Replayer) : Message → List ReplayEvent × Replayer
  | .add m => r.onAdd accepts m
  | .executed m => r.onReduced m.timestamp m.reference m.shares true
  | .cancel m => r.onReduced m.timestamp m.reference m.shares false
  | .delete m => r.onDelete m
  | .replace m => r.onReplace accepts m
  | .trade timestamp =>
    ([], r.setStats fun s => { s with trades := s.trades + 1, lastTimestamp := timestamp })
  | .systemEvent m =>
    ([], r.setStats fun s => { s with sessionState := m.code, lastTimestamp := m.timestamp })
  | .administrative => ([], r)

/-- A message of `bytes` bytes. -/
def apply (accepts : Price → Bool) (r : Replayer) (m : Message) (bytes : Nat) : List ReplayEvent × Replayer :=
  (r.setStats fun s => { s with messages := s.messages + 1, bytes := s.bytes + bytes.toUInt64 }).dispatch
    accepts m

/-- The bytes of a message, if they are one. -/
def receive (accepts : Price → Bool) (r : Replayer) (msg : List UInt8) : Replayer :=
  (Itch.decode msg).elim r fun m => (r.apply accepts m msg.length).2

end Replayer

/-! ## The observer's map -/

/-- What an observer knows of the shares left of each order. -/
abbrev ObserverMap := OrderId → Option Qty

namespace ObserverMap

/-- What a call tells it. -/
def hear (m : ObserverMap) : ReplayEvent → ObserverMap
  | .added reference _ _ _ shares _ => Function.update m reference (some shares)
  | .replaced original fresh _ shares _ =>
    Function.update (Function.update m original none) fresh (some shares)
  | .reduced reference taken _ _ => Function.update m reference ((m reference).map fun left => left - taken)
  | .removed reference _ => Function.update m reference none

end ObserverMap

/-! ## The feed as a list -/

/-- An order on the feed. -/
structure FeedOrder where
  reference : OrderId
  symbol : Symbol
  side : Side
  price : Price
  shares : Qty
  deriving DecidableEq, Repr

namespace FeedOrder

/-- An order that can rest, at the end of the list. -/
def append (os : List FeedOrder) (o : FeedOrder) : List FeedOrder :=
  if o.reference ≠ 0 ∧ o.shares ≠ 0 then os ++ [o] else os

def remove (os : List FeedOrder) (reference : OrderId) : List FeedOrder :=
  os.filter fun o => o.reference ≠ reference

/-- `shares` less of an order, or as many as it has: an order with none left
is gone. -/
def take (os : List FeedOrder) (reference : OrderId) (shares : Qty) : List FeedOrder :=
  os.flatMap fun o =>
    if o.reference = reference then
      let left := o.shares - min shares o.shares
      if left = 0 then [] else [{ o with shares := left }]
    else [o]

/-- What a message does to the list. -/
def apply (os : List FeedOrder) : Message → List FeedOrder
  | .add m => append os ⟨m.reference, m.symbol, m.side, m.price, m.shares⟩
  | .executed m => take os m.reference m.shares
  | .cancel m => take os m.reference m.shares
  | .delete m => remove os m.reference
  | .replace m =>
    match os.find? fun o => o.reference = m.originalReference with
    | none => os
    | some o =>
      append (remove os m.originalReference) ⟨m.newReference, o.symbol, o.side, m.price, m.shares⟩
  | .trade _ => os
  | .systemEvent _ => os
  | .administrative => os

/-- A message brings in no reference that is on the list already, but for
that of the order it replaces. -/
def Fresh (os : List FeedOrder) : Message → Prop
  | .add m => m.shares ≠ 0 → ∀ o ∈ os, o.reference ≠ m.reference
  | .replace m => m.shares ≠ 0 → (∃ o ∈ os, o.reference = m.originalReference) →
    ∀ o ∈ os, o.reference ≠ m.originalReference → o.reference ≠ m.newReference
  | _ => True

instance (os : List FeedOrder) : ∀ m, Decidable (Fresh os m)
  | .add m => inferInstanceAs (Decidable (m.shares ≠ 0 → ∀ o ∈ os, o.reference ≠ m.reference))
  | .replace m =>
    inferInstanceAs (Decidable (m.shares ≠ 0 → (∃ o ∈ os, o.reference = m.originalReference) →
      ∀ o ∈ os, o.reference ≠ m.originalReference → o.reference ≠ m.newReference))
  | .executed _ | .cancel _ | .delete _ | .trade _ | .systemEvent _ | .administrative => .isTrue trivial

/-- The bytes of a message, if they are one. -/
def receive (os : List FeedOrder) (msg : List UInt8) : List FeedOrder := (Itch.decode msg).elim os (apply os)

/-- The prices of a side of a symbol, best first. -/
def prices (os : List FeedOrder) (symbol : Symbol) (s : Side) : List Price :=
  ((os.filter fun o => o.symbol = symbol ∧ o.side = s).map fun o => o.price).dedup.mergeSort
    fun p p' => !s.better p' p

/-- A side of a symbol: at each of its prices, the orders there in the order of
the list. -/
def levels (os : List FeedOrder) (symbol : Symbol) (s : Side) : List LevelView :=
  (prices os symbol s).map fun p =>
    let here := os.filter fun o => o.symbol = symbol ∧ o.side = s ∧ o.price = p
    ⟨p, (here.map fun o => o.shares.toUInt64).sum, UInt32.ofNat here.length,
      here.map fun o => (o.reference, o.shares)⟩

end FeedOrder

end Spec

end Pricetime
