import Pricetime.Impl.Types

/-!
# The order-entry protocol

Requests and responses of 40 bytes. The kind, side and code of a message are
bytes that `decode` takes as they come, so that a request may have a kind or
side that has no name.
-/

namespace Pricetime

/-- `side == Side::Bid` is all that is ever asked of a side. -/
def Side.ofByte (b : UInt8) : Side := if b = 0 then .bid else .ask

def Result.code : Result → UInt8
  | .ok => 0
  | .rejectedBadId => 1
  | .rejectedBadQty => 2
  | .rejectedBadPrice => 3
  | .rejectedDuplicateId => 4
  | .rejectedUnknownId => 5
  | .rejectedNoLiquidity => 6

namespace Wire

def kMessageSize : Nat := 40

def kMagic0 : UInt8 := 'p'.toUInt8

def kMagic1 : UInt8 := 't'.toUInt8

def putLe32 (v : UInt32) : List UInt8 := (List.range 4).map fun i => (v >>> (8 * i).toUInt32).toUInt8

def putLe64 (v : UInt64) : List UInt8 := (List.range 8).map fun i => (v >>> (8 * i).toUInt64).toUInt8

/-- The `n` bytes from offset `i` on, the least significant first; `none` is a
read past the end. -/
def getLe : Nat → List UInt8 → Nat → Option UInt64
  | 0, _, _ => some 0
  | n + 1, p, i => do
    let b ← p[i]?
    let v ← getLe n p (i + 1)
    some ((v <<< 8) ||| b.toUInt64)

def getLe32 (p : List UInt8) (i : Nat) : Option UInt32 := (getLe 4 p i).map UInt64.toUInt32

def getLe64 (p : List UInt8) (i : Nat) : Option UInt64 := getLe 8 p i

abbrev ReqKind := UInt8

namespace ReqKind

def enter : ReqKind := 'E'.toUInt8

def cancel : ReqKind := 'X'.toUInt8

def replace : ReqKind := 'U'.toUInt8

def reduce : ReqKind := 'Q'.toUInt8

end ReqKind

structure Request where
  kind : ReqKind := ReqKind.enter
  side : UInt8 := 0
  qty : Qty := 0
  price : Price := 0
  id : OrderId := 0
  newId : OrderId := 0
  clientTs : UInt64 := 0
  deriving DecidableEq, Repr

def Request.encode (r : Request) : List UInt8 :=
  [r.kind, r.side] ++ putLe32 r.qty ++ putLe64 r.price.toUInt64 ++ putLe64 r.id ++ putLe64 r.newId ++
    putLe64 r.clientTs ++ [kMagic0, kMagic1]

/-- `decode`: `some none` where it returns false. -/
def Request.decode (p : List UInt8) : Option (Option Request) := do
  let tag ← p[38]?
  if tag ≠ kMagic0 then some none
  else do
    let tag ← p[39]?
    if tag ≠ kMagic1 then some none
    else do
      let kind ← p[0]?
      let side ← p[1]?
      let qty ← getLe32 p 2
      let price ← getLe64 p 6
      let id ← getLe64 p 14
      let newId ← getLe64 p 22
      let clientTs ← getLe64 p 30
      some (some { kind, side, qty, price := price.toInt64, id, newId, clientTs })

abbrev RespKind := UInt8

namespace RespKind

def accepted : RespKind := 'A'.toUInt8

def rejected : RespKind := 'J'.toUInt8

def executed : RespKind := 'F'.toUInt8

def canceled : RespKind := 'C'.toUInt8

def reduced : RespKind := 'R'.toUInt8

end RespKind

structure Response where
  kind : RespKind := RespKind.accepted
  code : UInt8 := Result.ok.code
  qty : Qty := 0
  price : Price := 0
  id : OrderId := 0
  peer : OrderId := 0
  clientTs : UInt64 := 0
  deriving DecidableEq, Repr

def Response.encode (r : Response) : List UInt8 :=
  [r.kind, r.code] ++ putLe32 r.qty ++ putLe64 r.price.toUInt64 ++ putLe64 r.id ++ putLe64 r.peer ++
    putLe64 r.clientTs ++ [kMagic0, kMagic1]

/-- As `Request.decode`. -/
def Response.decode (p : List UInt8) : Option (Option Response) := do
  let tag ← p[38]?
  if tag ≠ kMagic0 then some none
  else do
    let tag ← p[39]?
    if tag ≠ kMagic1 then some none
    else do
      let kind ← p[0]?
      let code ← p[1]?
      let qty ← getLe32 p 2
      let price ← getLe64 p 6
      let id ← getLe64 p 14
      let peer ← getLe64 p 22
      let clientTs ← getLe64 p 30
      some (some { kind, code, qty, price := price.toInt64, id, peer, clientTs })

end Wire

end Pricetime
