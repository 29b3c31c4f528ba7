import Pricetime.Impl.Types

/-!
# ITCH 5.0 messages

A message is its bytes, the type byte first, without the length that frames
it. A field is read at its offset, `none` being a read past the end of the
message.
-/

namespace Pricetime

/-- A stock symbol: eight bytes, padded with spaces on the right. -/
structure Symbol where
  data : Vector UInt8 8 := Vector.replicate 8 ' '.toUInt8
  deriving DecidableEq, Repr

namespace Symbol

def fromWire (p : List UInt8) (i : Nat) : Option Symbol := do
  let c₀ ← p[i]?
  let c₁ ← p[i + 1]?
  let c₂ ← p[i + 2]?
  let c₃ ← p[i + 3]?
  let c₄ ← p[i + 4]?
  let c₅ ← p[i + 5]?
  let c₆ ← p[i + 6]?
  let c₇ ← p[i + 7]?
  some ⟨#v[c₀, c₁, c₂, c₃, c₄, c₅, c₆, c₇]⟩

/-- The eight bytes as one word, the first byte being the least significant. -/
def bits (s : Symbol) : UInt64 := s.data.foldr (fun c v => (v <<< 8) ||| c.toUInt64) 0

end Symbol

namespace Itch

/-! ## Fields -/

/-- The `n` bytes from offset `i` on, the most significant first. -/
def be : Nat → List UInt8 → Nat → Option UInt64
  | 0, _, _ => some 0
  | n + 1, p, i => do
    let b ← p[i]?
    let v ← be n p (i + 1)
    some ((b.toUInt64 <<< (8 * n).toUInt64) ||| v)

def be16 (p : List UInt8) (i : Nat) : Option Nat := (be 2 p i).map UInt64.toNat

def be32 (p : List UInt8) (i : Nat) : Option UInt32 := (be 4 p i).map UInt64.toUInt32

def be48 (p : List UInt8) (i : Nat) : Option UInt64 := be 6 p i

def be64 (p : List UInt8) (i : Nat) : Option UInt64 := be 8 p i

/-- A 32-bit price field. -/
def bePrice (p : List UInt8) (i : Nat) : Option Price := (be32 p i).map fun v => v.toUInt64.toInt64

/-! ## Message types -/

inductive MsgType where
  | systemEvent
  | stockDirectory
  | stockTradingAction
  | regSho
  | marketParticipantPosition
  | mwcbDeclineLevel
  | mwcbStatus
  | ipoQuotingPeriod
  | luldAuctionCollar
  | operationalHalt
  | addOrder
  | addOrderMpid
  | orderExecuted
  | orderExecutedWithPrice
  | orderCancel
  | orderDelete
  | orderReplace
  | tradeNonCross
  | crossTrade
  | brokenTrade
  | noii
  | rpii
  | directListingCapitalRaise
  deriving DecidableEq, Repr

namespace MsgType

/-- The type byte. -/
def code : MsgType → Char
  | systemEvent => 'S'
  | stockDirectory => 'R'
  | stockTradingAction => 'H'
  | regSho => 'Y'
  | marketParticipantPosition => 'L'
  | mwcbDeclineLevel => 'V'
  | mwcbStatus => 'W'
  | ipoQuotingPeriod => 'K'
  | luldAuctionCollar => 'J'
  | operationalHalt => 'h'
  | addOrder => 'A'
  | addOrderMpid => 'F'
  | orderExecuted => 'E'
  | orderExecutedWithPrice => 'C'
  | orderCancel => 'X'
  | orderDelete => 'D'
  | orderReplace => 'U'
  | tradeNonCross => 'P'
  | crossTrade => 'Q'
  | brokenTrade => 'B'
  | noii => 'I'
  | rpii => 'N'
  | directListingCapitalRaise => 'O'

def all : List MsgType :=
  [systemEvent, stockDirectory, stockTradingAction, regSho, marketParticipantPosition, mwcbDeclineLevel,
    mwcbStatus, ipoQuotingPeriod, luldAuctionCollar, operationalHalt, addOrder, addOrderMpid, orderExecuted,
    orderExecutedWithPrice, orderCancel, orderDelete, orderReplace, tradeNonCross, crossTrade, brokenTrade,
    noii, rpii, directListingCapitalRaise]

/-- The type of a type byte, if it is a known one. -/
def ofByte (c : UInt8) : Option MsgType := all.find? fun t => t.code.toUInt8 = c

/-- The length of a message, the type byte included. -/
def length : MsgType → Nat
  | systemEvent => 12
  | stockDirectory => 39
  | stockTradingAction => 25
  | regSho => 20
  | marketParticipantPosition => 26
  | mwcbDeclineLevel => 35
  | mwcbStatus => 12
  | ipoQuotingPeriod => 28
  | luldAuctionCollar => 35
  | operationalHalt => 21
  | addOrder => 36
  | addOrderMpid => 40
  | orderExecuted => 31
  | orderExecutedWithPrice => 36
  | orderCancel => 23
  | orderDelete => 19
  | orderReplace => 35
  | tradeNonCross => 44
  | crossTrade => 40
  | brokenTrade => 19
  | noii => 50
  | rpii => 20
  | directListingCapitalRaise => 48

end MsgType

/-- 0 for an unrecognized type. -/
def messageLength (type : UInt8) : Nat :=
  match MsgType.ofByte type with
  | some t => t.length
  | none => 0

/-! ## Decoded messages -/

structure AddOrder where
  timestamp : UInt64 := 0
  reference : OrderId := 0
  side : Side := .bid
  shares : Qty := 0
  symbol : Symbol := {}
  price : Price := 0
  deriving DecidableEq, Repr

structure OrderExecuted where
  timestamp : UInt64 := 0
  reference : OrderId := 0
  shares : Qty := 0
  matchNumber : UInt64 := 0
  hasPrice : Bool := false
  printable : Bool := true
  price : Price := 0
  deriving DecidableEq, Repr

structure OrderCancel where
  timestamp : UInt64 := 0
  reference : OrderId := 0
  shares : Qty := 0
  deriving DecidableEq, Repr

structure OrderDelete where
  timestamp : UInt64 := 0
  reference : OrderId := 0
  deriving DecidableEq, Repr

structure OrderReplace where
  timestamp : UInt64 := 0
  originalReference : OrderId := 0
  newReference : OrderId := 0
  shares : Qty := 0
  price : Price := 0
  deriving DecidableEq, Repr

structure SystemEvent where
  timestamp : UInt64 := 0
  code : UInt8 := ' '.toUInt8
  deriving DecidableEq, Repr

structure StockDirectory where
  timestamp : UInt64 := 0
  symbol : Symbol := {}
  marketCategory : UInt8 := ' '.toUInt8
  deriving DecidableEq, Repr

def decodeAddOrder (p : List UInt8) : Option AddOrder := do
  let timestamp ← be48 p 5
  let reference ← be64 p 11
  let side ← p[19]?
  let shares ← be32 p 20
  let symbol ← Symbol.fromWire p 24
  let price ← bePrice p 32
  some { timestamp, reference, side := if side = 'B'.toUInt8 then .bid else .ask, shares, symbol, price }

def decodeOrderExecuted (p : List UInt8) : Option OrderExecuted := do
  let timestamp ← be48 p 5
  let reference ← be64 p 11
  let shares ← be32 p 19
  let matchNumber ← be64 p 23
  let type ← p[0]?
  if type = MsgType.orderExecutedWithPrice.code.toUInt8 then do
    let printable ← p[31]?
    let price ← bePrice p 32
    some { timestamp, reference, shares, matchNumber, hasPrice := true, printable := printable = 'Y'.toUInt8, price }
  else some { timestamp, reference, shares, matchNumber }

def decodeOrderCancel (p : List UInt8) : Option OrderCancel := do
  let timestamp ← be48 p 5
  let reference ← be64 p 11
  let shares ← be32 p 19
  some { timestamp, reference, shares }

def decodeOrderDelete (p : List UInt8) : Option OrderDelete := do
  let timestamp ← be48 p 5
  let reference ← be64 p 11
  some { timestamp, reference }

def decodeOrderReplace (p : List UInt8) : Option OrderReplace := do
  let timestamp ← be48 p 5
  let originalReference ← be64 p 11
  let newReference ← be64 p 19
  let shares ← be32 p 27
  let price ← bePrice p 31
  some { timestamp, originalReference, newReference, shares, price }

def decodeSystemEvent (p : List UInt8) : Option SystemEvent := do
  let timestamp ← be48 p 5
  let code ← p[11]?
  some { timestamp, code }

def decodeStockDirectory (p : List UInt8) : Option StockDirectory := do
  let timestamp ← be48 p 5
  let symbol ← Symbol.fromWire p 11
  let marketCategory ← p[19]?
  some { timestamp, symbol, marketCategory }

/-- A message as the replayer takes it. -/
inductive Message where
  | add (m : AddOrder)
  | executed (m : OrderExecuted)
  | cancel (m : OrderCancel)
  | delete (m : OrderDelete)
  | replace (m : OrderReplace)
  | trade (timestamp : UInt64)
  | systemEvent (m : SystemEvent)
  | administrative
  deriving DecidableEq, Repr

/-- The decoding half of the switch in `Replayer::apply`. -/
def decode (msg : List UInt8) : Option Message := do
  let type ← msg[0]?
  match MsgType.ofByte type with
  | some .addOrder | some .addOrderMpid => (decodeAddOrder msg).map .add
  | some .orderExecuted | some .orderExecutedWithPrice => (decodeOrderExecuted msg).map .executed
  | some .orderCancel => (decodeOrderCancel msg).map .cancel
  | some .orderDelete => (decodeOrderDelete msg).map .delete
  | some .orderReplace => (decodeOrderReplace msg).map .replace
  | some .tradeNonCross => (be48 msg 5).map .trade
  | some .systemEvent => (decodeSystemEvent msg).map .systemEvent
  | _ => some .administrative

end Itch

end Pricetime
