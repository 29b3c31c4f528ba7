import Pricetime.Impl.Itch

/-!
# The ITCH writer

Framed messages in a growing buffer. `WriterCall` is one call of a `Writer`
method. `msg_start_` is never read, and left out.
-/

namespace Pricetime

namespace Itch

structure Writer where
  buf : List UInt8 := []
  count : Nat := 0
  bodyStart : Nat := 0
  msgLen : Nat := 0
  deriving DecidableEq, Repr

namespace Writer

def clear (w : Writer) : Writer := { w with buf := [], count := 0 }

/-- The shift loops of `put16` to `put64`: the low `n` bytes of `v`, the most
significant first. -/
def bytesBe : Nat → UInt64 → List UInt8
  | 0, _ => []
  | n + 1, v => ((v >>> (8 * n).toUInt64) &&& 0xFF).toUInt8 :: bytesBe n v

def put8 (w : Writer) (v : UInt8) : Writer := { w with buf := w.buf ++ [v] }

def put16 (w : Writer) (v : UInt16) : Writer := { w with buf := w.buf ++ bytesBe 2 v.toUInt64 }

def put32 (w : Writer) (v : UInt32) : Writer := { w with buf := w.buf ++ bytesBe 4 v.toUInt64 }

def put48 (w : Writer) (v : UInt64) : Writer := { w with buf := w.buf ++ bytesBe 6 v }

def put64 (w : Writer) (v : UInt64) : Writer := { w with buf := w.buf ++ bytesBe 8 v }

def putSymbol (w : Writer) (s : Symbol) : Writer := { w with buf := w.buf ++ s.data.toList }

/-- The price field: `static_cast<std::uint32_t>(price)`. -/
def putPrice (w : Writer) (p : Price) : Writer := w.put32 p.toUInt64.toUInt32

/-- Zeros up to `toLen` bytes of message. -/
def pad (w : Writer) (toLen : Nat) : Writer :=
  { w with buf := w.buf ++ List.replicate (toLen - (w.buf.length - w.bodyStart)) 0 }

/-- `begin`. -/
def start (w : Writer) (type : Char) (len : Nat) : Writer :=
  let w := { w with
    msgLen := len
    buf := w.buf ++ [((len >>> 8) &&& 0xFF).toUInt8, (len &&& 0xFF).toUInt8] }
  (({ w with bodyStart := w.buf.length }.put8 type.toUInt8).put16 0).put16 0

/-- `end`. -/
def finish (w : Writer) : Writer :=
  let w := w.pad w.msgLen
  { w with count := w.count + 1 }

def sideByte (s : Side) : UInt8 := if s = .bid then 'B'.toUInt8 else 'S'.toUInt8

def systemEvent (w : Writer) (ts : UInt64) (code : UInt8) : Writer :=
  (((w.start 'S' 12).put48 ts).put8 code).finish

def stockDirectory (w : Writer) (ts : UInt64) (sym : Symbol) (category : UInt8) : Writer :=
  (((((w.start 'R' 39).put48 ts).putSymbol sym).put8 category).pad 39).finish

def addOrder (w : Writer) (ts : UInt64) (ref : OrderId) (side : Side) (shares : Qty) (sym : Symbol)
    (price : Price) : Writer :=
  (((((((w.start 'A' 36).put48 ts).put64 ref).put8 (sideByte side)).put32 shares).putSymbol sym).putPrice
    price).finish

/-- The participant id is cut or filled with blanks to four bytes. -/
def addOrderMpid (w : Writer) (ts : UInt64) (ref : OrderId) (side : Side) (shares : Qty) (sym : Symbol)
    (price : Price) (mpid : List UInt8) : Writer :=
  let w := ((((((w.start 'F' 40).put48 ts).put64 ref).put8 (sideByte side)).put32 shares).putSymbol sym).putPrice
    price
  ((List.range 4).foldl (fun w i => w.put8 (if i < mpid.length then mpid.getD i 0 else ' '.toUInt8)) w).finish

def orderExecuted (w : Writer) (ts : UInt64) (ref : OrderId) (shares : Qty) (matchNumber : UInt64) : Writer :=
  (((((w.start 'E' 31).put48 ts).put64 ref).put32 shares).put64 matchNumber).finish

def orderExecutedWithPrice (w : Writer) (ts : UInt64) (ref : OrderId) (shares : Qty) (matchNumber : UInt64)
    (printable : Bool) (price : Price) : Writer :=
  (((((((w.start 'C' 36).put48 ts).put64 ref).put32 shares).put64 matchNumber).put8
    (if printable then 'Y'.toUInt8 else 'N'.toUInt8)).putPrice price).finish

def orderCancel (w : Writer) (ts : UInt64) (ref : OrderId) (shares : Qty) : Writer :=
  ((((w.start 'X' 23).put48 ts).put64 ref).put32 shares).finish

def orderDelete (w : Writer) (ts : UInt64) (ref : OrderId) : Writer :=
  (((w.start 'D' 19).put48 ts).put64 ref).finish

def orderReplace (w : Writer) (ts : UInt64) (orig fresh : OrderId) (shares : Qty) (price : Price) : Writer :=
  ((((((w.start 'U' 35).put48 ts).put64 orig).put64 fresh).put32 shares).putPrice price).finish

def tradeNonCross (w : Writer) (ts : UInt64) (ref : OrderId) (side : Side) (shares : Qty) (sym : Symbol)
    (price : Price) (matchNumber : UInt64) : Writer :=
  ((((((((w.start 'P' 44).put48 ts).put64 ref).put8 (sideByte side)).put32 shares).putSymbol sym).putPrice
    price).put64 matchNumber).finish

def stockTradingAction (w : Writer) (ts : UInt64) (sym : Symbol) (state : UInt8) : Writer :=
  (((((w.start 'H' 25).put48 ts).putSymbol sym).put8 state).pad 25).finish

end Writer

/-- A call of the writer. -/
inductive WriterCall where
  | systemEvent (ts : UInt64) (code : UInt8)
  | stockDirectory (ts : UInt64) (sym : Symbol) (category : UInt8)
  | addOrder (ts : UInt64) (ref : OrderId) (side : Side) (shares : Qty) (sym : Symbol) (price : Price)
  | addOrderMpid (ts : UInt64) (ref : OrderId) (side : Side) (shares : Qty) (sym : Symbol) (price : Price)
    (mpid : List UInt8)
  | orderExecuted (ts : UInt64) (ref : OrderId) (shares : Qty) (matchNumber : UInt64)
  | orderExecutedWithPrice (ts : UInt64) (ref : OrderId) (shares : Qty) (matchNumber : UInt64)
    (printable : Bool) (price : Price)
  | orderCancel (ts : UInt64) (ref : OrderId) (shares : Qty)
  | orderDelete (ts : UInt64) (ref : OrderId)
  | orderReplace (ts : UInt64) (orig fresh : OrderId) (shares : Qty) (price : Price)
  | tradeNonCross (ts : UInt64) (ref : OrderId) (side : Side) (shares : Qty) (sym : Symbol) (price : Price)
    (matchNumber : UInt64)
  | stockTradingAction (ts : UInt64) (sym : Symbol) (state : UInt8)
  deriving DecidableEq, Repr

namespace Writer

def call (w : Writer) : WriterCall → Writer
  | .systemEvent ts code => w.systemEvent ts code
  | .stockDirectory ts sym category => w.stockDirectory ts sym category
  | .addOrder ts ref side shares sym price => w.addOrder ts ref side shares sym price
  | .addOrderMpid ts ref side shares sym price mpid => w.addOrderMpid ts ref side shares sym price mpid
  | .orderExecuted ts ref shares matchNumber => w.orderExecuted ts ref shares matchNumber
  | .orderExecutedWithPrice ts ref shares matchNumber printable price =>
    w.orderExecutedWithPrice ts ref shares matchNumber printable price
  | .orderCancel ts ref shares => w.orderCancel ts ref shares
  | .orderDelete ts ref => w.orderDelete ts ref
  | .orderReplace ts orig fresh shares price => w.orderReplace ts orig fresh shares price
  | .tradeNonCross ts ref side shares sym price matchNumber =>
    w.tradeNonCross ts ref side shares sym price matchNumber
  | .stockTradingAction ts sym state => w.stockTradingAction ts sym state

/-- `bytes()`. -/
def bytes (w : Writer) : List UInt8 := w.buf

/-- `message_count()`. -/
def messageCount (w : Writer) : Nat := w.count

end Writer

end Itch

end Pricetime
