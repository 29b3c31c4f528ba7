import Pricetime.Impl.Types

/-!
# The market maker

Its quotes, its limits and what it keeps of its fills and of the mid. Signed
arithmetic wraps.
-/

namespace Pricetime

/-- `side` is the side that the order was on: a fill on the bid buys. -/
structure FillEvent where
  side : Side := .bid
  price : Price := 0
  qty : Qty := 0
  timestamp : UInt64 := 0
  midAtFill : Price := 0
  deriving DecidableEq, Repr

structure MarketMakerConfig where
  halfSpreadTicks : Price := 5
  quoteSize : Qty := 100
  maxPosition : Int64 := 1000
  skewPer100Shares : Price := 1
  deriving DecidableEq, Repr

structure MidPoint where
  ts : UInt64 := 0
  mid : Price := 0
  deriving DecidableEq, Repr

structure MarketMaker where
  cfg : MarketMakerConfig
  position : Int64 := 0
  cash : Int64 := 0
  fills : UInt64 := 0
  volume : UInt64 := 0
  lastMid : Price := 0
  lastTs : UInt64 := 0
  fillsLog : List FillEvent := []
  midHistory : List MidPoint := []
  deriving DecidableEq, Repr

namespace MarketMaker

/-- The ticks that the quotes move against the position. -/
def skew (m : MarketMaker) : Price := m.position * m.cfg.skewPer100Shares / 100

def bidQuote (m : MarketMaker) (mid : Price) : Price := mid - m.cfg.halfSpreadTicks - m.skew

def askQuote (m : MarketMaker) (mid : Price) : Price := mid + m.cfg.halfSpreadTicks - m.skew

def wantsBid (m : MarketMaker) : Bool := m.position < m.cfg.maxPosition

def wantsAsk (m : MarketMaker) : Bool := m.position > -m.cfg.maxPosition

def onFill (m : MarketMaker) (f : FillEvent) : MarketMaker :=
  let signedQty := if f.side = .bid then f.qty.toUInt64.toInt64 else -f.qty.toUInt64.toInt64
  { m with
    cash := m.cash - signedQty * f.price
    position := m.position + signedQty
    fills := m.fills + 1
    volume := m.volume + f.qty.toUInt64
    fillsLog := m.fillsLog ++ [f] }

def onMid (m : MarketMaker) (mid : Price) (timestamp : UInt64) : MarketMaker :=
  { m with lastMid := mid, lastTs := timestamp, midHistory := m.midHistory ++ [⟨timestamp, mid⟩] }

/-- A turn of the loop of `peak_abs_position`: the peak and the position. -/
def notePeak (acc : Int64 × Int64) (f : FillEvent) : Int64 × Int64 :=
  let pos := acc.2 + if f.side = .bid then f.qty.toUInt64.toInt64 else -f.qty.toUInt64.toInt64
  let a := if pos < 0 then -pos else pos
  (if a > acc.1 then a else acc.1, pos)

def peakAbsPosition (m : MarketMaker) : Int64 := (m.fillsLog.foldl notePeak (0, 0)).1

/-- `INT64_MIN`. -/
def kNoMid : Price := Int64.minValue

/-- The search of `mid_at_or_after`. -/
def searchMids (mids : List MidPoint) (ts : UInt64) (lo hi : Nat) (hhi : hi ≤ mids.length) : Nat :=
  if h : lo < hi then
    let midIdx := lo + (hi - lo) / 2
    if (mids[midIdx]).ts < ts then searchMids mids ts (midIdx + 1) hi hhi
    else searchMids mids ts lo midIdx (by omega)
  else lo
  termination_by hi - lo

def midAtOrAfter (m : MarketMaker) (ts : UInt64) : Price :=
  match m.midHistory[searchMids m.midHistory ts 0 m.midHistory.length (Nat.le_refl _)]? with
  | some p => p.mid
  | none => kNoMid

/-- The mid that a fill is compared with, unless it is skipped. -/
def future (m : MarketMaker) (horizonNs : UInt64) (f : FillEvent) : Option Price :=
  let future := m.midAtOrAfter (f.timestamp + horizonNs)
  if future = kNoMid then none else some future

/-- The moves that `markout` takes the mean of, which is in floating point. -/
def markout (m : MarketMaker) (horizonNs : UInt64) : List Price :=
  if m.midHistory.isEmpty then []
  else m.fillsLog.filterMap fun f =>
    (m.future horizonNs f).map fun future =>
      let move := future - f.midAtFill
      if f.side = .bid then move else -move

end MarketMaker

end Pricetime
