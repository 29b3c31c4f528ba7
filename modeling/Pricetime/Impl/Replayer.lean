import Pricetime.Impl.MultiBook

/-!
# The ITCH replayer

`Replayer.apply` drives the books from one message. What it tells its
observer is its answer, in order. `on_executed` and `on_cancel` are one
handler with two counters.
-/

namespace Pricetime

namespace Itch

structure ReplayStats where
  messages : UInt64 := 0
  bytes : UInt64 := 0
  adds : UInt64 := 0
  executions : UInt64 := 0
  cancels : UInt64 := 0
  deletes : UInt64 := 0
  replaces : UInt64 := 0
  trades : UInt64 := 0
  skippedSymbol : UInt64 := 0
  unknownReference : UInt64 := 0
  clamped : UInt64 := 0
  sharesAdded : UInt64 := 0
  sharesExecuted : UInt64 := 0
  lastTimestamp : UInt64 := 0
  sessionState : UInt8 := ' '.toUInt8
  deriving DecidableEq, Repr

/-- A call of the observer. -/
inductive ReplayEvent where
  | added (reference : OrderId) (symbol : Symbol) (side : Side) (price : Price) (shares : Qty)
    (timestamp : UInt64)
  | replaced (original fresh : OrderId) (price : Price) (shares : Qty) (timestamp : UInt64)
  | reduced (reference : OrderId) (taken : Qty) (isExecution : Bool) (timestamp : UInt64)
  | removed (reference : OrderId) (timestamp : UInt64)
  deriving DecidableEq, Repr

/-- `filter` holds the bits of the symbols tracked, all of them if it is
empty. -/
structure Replayer (L M : Type) where
  books : MultiBook L M
  filter : List UInt64 := []
  stats : ReplayStats := {}

namespace Replayer

variable {L M : Type} [Ladder L] [IdMap M]

def new (ladder : L) : Option (Replayer L M) := do
  let books ← MultiBook.new ladder
  some { books }

def trackOnly (r : Replayer L M) (symbols : List Symbol) : Replayer L M :=
  { r with filter := symbols.map Symbol.bits }

def tracked (r : Replayer L M) (s : Symbol) : Bool := r.filter.isEmpty || r.filter.contains s.bits

def setStats (r : Replayer L M) (f : ReplayStats → ReplayStats) : Replayer L M :=
  { r with stats := f r.stats }

def onAdd (r : Replayer L M) (m : AddOrder) : Option (List ReplayEvent × Replayer L M) :=
  let r := r.setStats fun s => { s with lastTimestamp := m.timestamp }
  if !r.tracked m.symbol then
    some ([], r.setStats fun s => { s with skippedSymbol := s.skippedSymbol + 1 })
  else do
    let (p, books) ← r.books.book m.symbol
    let (reply, books) ← books.onBook p fun b => b.insertPassive m.reference m.side m.price m.shares
    if reply.result = .ok then do
      let books ← books.noteOrder m.reference p
      some ([.added m.reference m.symbol m.side m.price m.shares m.timestamp],
        { r with books }.setStats fun s =>
          { s with adds := s.adds + 1, sharesAdded := s.sharesAdded + m.shares.toUInt64 })
    else some ([], { r with books })

/-- `on_executed` and `on_cancel`. -/
def onReduced (r : Replayer L M) (timestamp : UInt64) (reference : OrderId) (shares : Qty)
    (isExecution : Bool) : Option (List ReplayEvent × Replayer L M) := do
  let r := r.setStats fun s => { s with lastTimestamp := timestamp }
  match ← r.books.bookForOrder reference with
  | none => some ([], r.setStats fun s => { s with unknownReference := s.unknownReference + 1 })
  | some p =>
    let (reply, books) ← r.books.onBook p fun b =>
      if isExecution then b.executeResting reference shares else b.reduceResting reference shares
    let taken := reply.taken
    let r := { r with books }.setStats fun s =>
      if taken < shares then { s with clamped := s.clamped + 1 } else s
    let r := r.setStats fun s =>
      if isExecution then
        { s with executions := s.executions + 1, sharesExecuted := s.sharesExecuted + taken.toUInt64 }
      else { s with cancels := s.cancels + 1 }
    let reduced := ReplayEvent.reduced reference taken isExecution timestamp
    let b ← books.deref p
    match ← b.findOrder reference with
    | none => do
      let books ← books.forgetOrder reference
      some ([reduced, .removed reference timestamp], { r with books })
    | some _ => some ([reduced], r)

def onExecuted (r : Replayer L M) (m : OrderExecuted) : Option (List ReplayEvent × Replayer L M) :=
  r.onReduced m.timestamp m.reference m.shares true

def onCancel (r : Replayer L M) (m : OrderCancel) : Option (List ReplayEvent × Replayer L M) :=
  r.onReduced m.timestamp m.reference m.shares false

def onDelete (r : Replayer L M) (m : OrderDelete) : Option (List ReplayEvent × Replayer L M) := do
  let r := r.setStats fun s => { s with lastTimestamp := m.timestamp }
  match ← r.books.bookForOrder m.reference with
  | none => some ([], r.setStats fun s => { s with unknownReference := s.unknownReference + 1 })
  | some p =>
    let (_, books) ← r.books.onBook p fun b => b.cancel m.reference
    let books ← books.forgetOrder m.reference
    some ([.removed m.reference m.timestamp],
      { r with books }.setStats fun s => { s with deletes := s.deletes + 1 })

def onReplace (r : Replayer L M) (m : OrderReplace) : Option (List ReplayEvent × Replayer L M) := do
  let r := r.setStats fun s => { s with lastTimestamp := m.timestamp }
  let unknown := r.setStats fun s => { s with unknownReference := s.unknownReference + 1 }
  match ← r.books.bookForOrder m.originalReference with
  | none => some ([], unknown)
  | some p =>
    let b ← r.books.deref p
    match ← b.findOrder m.originalReference with
    | none => some ([], unknown)
    | some original =>
      let side := (b.heap.order original).side
      let (_, books) ← r.books.onBook p fun b => b.cancel m.originalReference
      let books ← books.forgetOrder m.originalReference
      let (reply, books) ← books.onBook p fun b => b.insertPassive m.newReference side m.price m.shares
      let replaced := fun s : ReplayStats => { s with replaces := s.replaces + 1 }
      if reply.result = .ok then do
        let books ← books.noteOrder m.newReference p
        some ([.replaced m.originalReference m.newReference m.price m.shares m.timestamp],
          ({ r with books }.setStats fun s =>
            { s with sharesAdded := s.sharesAdded + m.shares.toUInt64 }).setStats replaced)
      else some ([], { r with books }.setStats replaced)

/-- The handlers of the switch in `apply`. -/
def dispatch (r : Replayer L M) : Message → Option (List ReplayEvent × Replayer L M)
  | .add m => r.onAdd m
  | .executed m => r.onExecuted m
  | .cancel m => r.onCancel m
  | .delete m => r.onDelete m
  | .replace m => r.onReplace m
  | .trade timestamp =>
    some ([], r.setStats fun s => { s with trades := s.trades + 1, lastTimestamp := timestamp })
  | .systemEvent m =>
    some ([], r.setStats fun s => { s with sessionState := m.code, lastTimestamp := m.timestamp })
  | .administrative => some ([], r)

/-- One complete message. -/
def apply (r : Replayer L M) (msg : List UInt8) : Option (List ReplayEvent × Replayer L M) := do
  let m ← decode msg
  (r.setStats fun s =>
    { s with messages := s.messages + 1, bytes := s.bytes + msg.length.toUInt64 }).dispatch m

end Replayer

end Itch

end Pricetime
