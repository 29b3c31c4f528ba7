import Pricetime.Impl.ItchWriter

/-!
# The synthetic session

`gen_itch`: a day of messages from a seed, with the table of the orders that
are live, as one state that the loop takes from message to message. A step is
`none` where an index is past its end, or a remainder is by zero.
-/

namespace Pricetime

open Itch (Writer)

/-- A ticker, padded or truncated to eight bytes. -/
def Symbol.ofTicker (s : List Char) : Symbol := ⟨Vector.ofFn fun i => (s[i.val]?.getD ' ').toUInt8⟩

/-- `next_random`: the number drawn, and the state after. -/
def nextRandom (state : UInt64) : UInt64 × UInt64 :=
  let state := state + 0x9E3779B97F4A7C15
  let z := state
  let z := (z ^^^ (z >>> 30)) * 0xBF58476D1CE4E5B9
  let z := (z ^^^ (z >>> 27)) * 0x94D049BB133111EB
  (z ^^^ (z >>> 31), state)

structure LiveOrder where
  ref : OrderId := 0
  shares : Qty := 0
  symbolIndex : Nat := 0
  side : Side := .bid
  deriving DecidableEq, Repr

structure GenItch where
  w : Writer
  ts : UInt64
  seed : UInt64
  live : List LiveOrder := []
  nextRef : OrderId := 1
  matchNumber : UInt64 := 1
  deriving DecidableEq, Repr

namespace GenItch

/-- Each symbol's own mid. -/
def mids (symbols : List Symbol) : List Price :=
  (List.range symbols.length).map fun i => (500000 + (i.toUInt64 + 1) * 250000).toInt64

/-- `next_random(seed) % n`. -/
def draw (g : GenItch) (n : UInt64) : Option (UInt64 × GenItch) :=
  if n = 0 then none
  else
    let (z, seed) := nextRandom g.seed
    some (z % n, { g with seed })

/-- `o = live.back(); live.pop_back();`, `o` being `live[idx]`. -/
def dropLive (g : GenItch) (idx : Nat) : Option GenItch := do
  let back ← g.live.getLast?
  some { g with live := (g.live.set idx back).dropLast }

def setLive (g : GenItch) (idx : Nat) (o : LiveOrder) : GenItch := { g with live := g.live.set idx o }

/-- `side == Side::Bid ? mid - offset : mid + offset`. -/
def quote (side : Side) (mid offset : Price) : Price := if side = .bid then mid - offset else mid + offset

/-! ## The messages of the loop -/

def add (symbols : List Symbol) (mids : List Price) (g : GenItch) : Option GenItch := do
  let (si, g) ← g.draw symbols.length.toUInt64
  let si := si.toNat
  let (x, g) ← g.draw 2
  let side := if x = 0 then Side.bid else .ask
  let (x, g) ← g.draw 500
  let offset := (1 + x).toInt64
  let mid ← mids[si]?
  let price := quote side mid offset
  let (x, g) ← g.draw 20
  let shares := (100 * (1 + x)).toUInt32
  let ref := g.nextRef
  let g := { g with nextRef := g.nextRef + 1 }
  let (x, g) ← g.draw 10
  let sym ← symbols[si]?
  let w :=
    if x = 0 then g.w.addOrderMpid g.ts ref side shares sym price ("NSDQ".toList.map Char.toUInt8)
    else g.w.addOrder g.ts ref side shares sym price
  some { g with w, live := g.live ++ [{ ref, shares, symbolIndex := si, side }] }

def delete (g : GenItch) (idx : Nat) (o : LiveOrder) : Option GenItch :=
  { g with w := g.w.orderDelete g.ts o.ref }.dropLive idx

/-- The order at `idx` with `taken` shares less, or gone. -/
def takeLive (g : GenItch) (idx : Nat) (o : LiveOrder) (taken : Qty) : Option GenItch :=
  if taken ≥ o.shares then g.dropLive idx else some (g.setLive idx { o with shares := o.shares - taken })

def partialCancel (g : GenItch) (idx : Nat) (o : LiveOrder) : Option GenItch := do
  let (x, g) ← g.draw o.shares.toUInt64
  let cut := (1 + x).toUInt32
  { g with w := g.w.orderCancel g.ts o.ref cut }.takeLive idx o cut

def execution (mids : List Price) (g : GenItch) (idx : Nat) (o : LiveOrder) : Option GenItch := do
  let (x, g) ← g.draw o.shares.toUInt64
  let fill := (1 + x).toUInt32
  let (x, g) ← g.draw 5
  let w ←
    if x = 0 then do
      let mid ← mids[o.symbolIndex]?
      some (g.w.orderExecutedWithPrice g.ts o.ref fill g.matchNumber true mid)
    else some (g.w.orderExecuted g.ts o.ref fill g.matchNumber)
  { g with w, matchNumber := g.matchNumber + 1 }.takeLive idx o fill

def replace (mids : List Price) (g : GenItch) (idx : Nat) (o : LiveOrder) : Option GenItch := do
  let (x, g) ← g.draw 500
  let offset := (1 + x).toInt64
  let (x, g) ← g.draw 20
  let shares := (100 * (1 + x)).toUInt32
  let fresh := g.nextRef
  let g := { g with nextRef := g.nextRef + 1 }
  let mid ← mids[o.symbolIndex]?
  let price := quote o.side mid offset
  let g := { g with w := g.w.orderReplace g.ts o.ref fresh shares price }
  some (g.setLive idx { o with ref := fresh, shares })

/-- A trade against hidden liquidity. -/
def trade (symbols : List Symbol) (mids : List Price) (g : GenItch) (o : LiveOrder) : Option GenItch := do
  let sym ← symbols[o.symbolIndex]?
  let mid ← mids[o.symbolIndex]?
  some { g with
    w := g.w.tradeNonCross g.ts 0 .bid 100 sym mid g.matchNumber
    matchNumber := g.matchNumber + 1 }

/-- One message of the loop. -/
def step (symbols : List Symbol) (mids : List Price) (g : GenItch) : Option GenItch := do
  let (x, g) ← g.draw 50000
  let g := { g with ts := g.ts + (1000 + x) }
  let (roll, g) ← g.draw 100
  if roll < 45 ∨ g.live = [] then g.add symbols mids
  else do
    let (idx, g) ← g.draw g.live.length.toUInt64
    let idx := idx.toNat
    let o ← g.live[idx]?
    if roll < 70 then g.delete idx o
    else if roll < 82 then g.partialCancel idx o
    else if roll < 94 then g.execution mids idx o
    else if roll < 98 then g.replace mids idx o
    else g.trade symbols mids o

/-- The loop, of at most `fuel` messages. -/
def loop (symbols : List Symbol) (mids : List Price) (targetMessages : UInt64) : Nat → GenItch → Option GenItch
  | 0, g => if g.w.messageCount < targetMessages.toNat then none else some g
  | fuel + 1, g =>
    if g.w.messageCount < targetMessages.toNat then do
      let g ← g.step symbols mids
      loop symbols mids targetMessages fuel g
    else some g

/-- The symbols of a session for which none are given. -/
def defaultSymbols : List Symbol := ["AAPL", "MSFT", "TSLA", "NVDA"].map fun s => Symbol.ofTicker s.toList

/-- The session's symbols. -/
def sessionSymbols (symbols : List Symbol) : List Symbol := if symbols = [] then defaultSymbols else symbols

/-- `main`, from the options to the file. Each message of the loop is counted,
so that no more than `targetMessages` are asked of it. -/
def main (seed targetMessages : UInt64) (symbols : List Symbol) : Option GenItch := do
  let symbols := sessionSymbols symbols
  let ts := 9 * 3600 * 1000000000
  let w := ({} : Writer).systemEvent ts 'O'.toUInt8
  let w := symbols.foldl (fun w s => w.stockDirectory ts s 'Q'.toUInt8) w
  let ts := 9 * 3600 * 1000000000 + 1800 * 1000000000
  let w := w.systemEvent ts 'Q'.toUInt8
  let g ← loop symbols (mids symbols) targetMessages targetMessages.toNat { w, ts, seed }
  let ts := 16 * 3600 * 1000000000
  let w := g.w.systemEvent ts 'M'.toUInt8
  let w := w.systemEvent (ts + 1) 'C'.toUInt8
  some { g with w, ts }

end GenItch

end Pricetime
