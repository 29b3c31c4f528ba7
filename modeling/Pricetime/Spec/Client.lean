import Pricetime.Impl.Wire

/-!
# What a client knows of its orders

A client that keeps the shares left and the price of each order, by nothing
but the responses to its requests.
-/

namespace Pricetime

open Wire (Request Response ReqKind RespKind)

namespace Spec

abbrev ClientMap := OrderId → Option (Qty × Price)

namespace ClientMap

/-- `qty` shares less of an order, which is gone when none are left. -/
def subtract (m : ClientMap) (id : OrderId) (qty : Qty) : ClientMap :=
  Function.update m id ((m id).bind fun (left, price) => if left - qty = 0 then none else some (left - qty, price))

/-- What a response to a request tells. -/
def hear (m : ClientMap) (h : Request × Response) : ClientMap :=
  let (req, resp) := h
  if resp.kind = RespKind.accepted then
    let m := if req.kind = ReqKind.replace then Function.update m req.id none else m
    Function.update m resp.id (some (resp.qty, resp.price))
  else if resp.kind = RespKind.executed ∨ resp.kind = RespKind.reduced then m.subtract resp.id resp.qty
  else if resp.kind = RespKind.canceled then Function.update m resp.id none
  else m

/-- A response subtracts from an order that is known, and no more than it has. -/
def Covers (m : ClientMap) (h : Request × Response) : Prop :=
  h.2.kind = RespKind.executed ∨ h.2.kind = RespKind.reduced →
    ∃ left price, m h.2.id = some (left, price) ∧ h.2.qty ≤ left

end ClientMap

end Spec

end Pricetime
