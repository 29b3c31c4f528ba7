import Pricetime.Impl.Itch

/-!
# The orders of a feed by reference

What stands after some messages, as one finite map for all symbols, prices and
queues apart. `Fits` is what a sender of messages owes to the orders that
stand: it names orders that do, takes no more shares than they have, and gives
new ones references that are free and prices where they may be.
-/

namespace Pricetime

open Itch (Message)

namespace Spec

structure Entry where
  symbol : Symbol
  side : Side
  shares : Qty
  deriving DecidableEq, Repr

/-- What is left of an order. -/
def Entry.less (e : Entry) (shares : Qty) : Option Entry :=
  if shares < e.shares then some { e with shares := e.shares - shares } else none

abbrev Standing := OrderId → Option Entry

namespace Standing

def take (st : Standing) (reference : OrderId) (shares : Qty) : Standing :=
  Function.update st reference ((st reference).bind fun e => e.less shares)

/-- The orders after a message. -/
def after (st : Standing) : Message → Standing
  | .add m => Function.update st m.reference (some ⟨m.symbol, m.side, m.shares⟩)
  | .executed m => st.take m.reference m.shares
  | .cancel m => st.take m.reference m.shares
  | .delete m => Function.update st m.reference none
  | .replace m =>
    Function.update (Function.update st m.originalReference none) m.newReference
      ((st m.originalReference).map fun e => { e with shares := m.shares })
  | .trade _ => st
  | .systemEvent _ => st
  | .administrative => st

/-- The order of a reference has the shares to be taken. -/
def Covers (st : Standing) (reference : OrderId) (shares : Qty) : Prop :=
  shares ≠ 0 ∧ ∃ e, st reference = some e ∧ shares ≤ e.shares

/-- A message that fits the orders that stand, where those of a symbol and a
side may be at the prices `within` it. -/
def Fits (within : Symbol → Side → Price → Prop) (st : Standing) : Message → Prop
  | .add m => m.reference ≠ 0 ∧ m.shares ≠ 0 ∧ within m.symbol m.side m.price ∧ st m.reference = none
  | .executed m => st.Covers m.reference m.shares
  | .cancel m => st.Covers m.reference m.shares
  | .delete m => st m.reference ≠ none
  | .replace m =>
    m.newReference ≠ 0 ∧ m.shares ≠ 0 ∧ st m.newReference = none ∧
      ∃ e, st m.originalReference = some e ∧ within e.symbol e.side m.price
  | .trade _ => True
  | .systemEvent _ => True
  | .administrative => True

end Standing

end Spec

end Pricetime
