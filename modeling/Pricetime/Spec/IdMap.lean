import Pricetime.Impl.Types

/-!
# What an id map is for

A finite map from ids to values: `insert` adds an absent id, `erase` removes
a present one, both say whether they did, and `reserve` has no effect.
-/

namespace Pricetime

/-- An operation on an id map. -/
inductive MapOp (V : Type) where
  | find (id : OrderId)
  | insert (id : OrderId) (value : V)
  | erase (id : OrderId)
  | reserve (n : Nat)

/-- What an operation returns: a nullable value, a flag, or nothing. -/
inductive MapReply (V : Type) where
  | value (v : Option V)
  | flag (b : Bool)
  | done
  deriving DecidableEq

/-- Id 0 is the sentinel, to be looked up only. -/
def MapOp.Admissible {V : Type} : MapOp V → Prop
  | .insert id _ => id ≠ 0
  | .erase id => id ≠ 0
  | .find _ => True
  | .reserve _ => True

namespace Spec

abbrev FiniteMap (V : Type) := Finmap fun _ : OrderId => V

namespace FiniteMap

variable {V : Type}

def find (f : FiniteMap V) (id : OrderId) : Option V := Finmap.lookup id f

def insert (f : FiniteMap V) (id : OrderId) (v : V) : Bool × FiniteMap V :=
  if id ∈ f then (false, f) else (true, Finmap.insert id v f)

def erase (f : FiniteMap V) (id : OrderId) : Bool × FiniteMap V :=
  (decide (id ∈ f), Finmap.erase id f)

def size (f : FiniteMap V) : Nat := f.keys.card

/-- One operation: what it returns, with the size it leaves. -/
def apply (f : FiniteMap V) : MapOp V → (MapReply V × Nat) × FiniteMap V
  | .find id => ((.value (find f id), size f), f)
  | .insert id v => let (b, f) := insert f id v; ((.flag b, size f), f)
  | .erase id => let (b, f) := erase f id; ((.flag b, size f), f)
  | .reserve _ => ((.done, size f), f)

end FiniteMap

end Spec

end Pricetime
