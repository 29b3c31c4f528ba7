import Pricetime.Impl.Types

/-!
# Order-id maps

`OpenAddressMap`, the open-addressing table from ids to pointers, linear
probing and backward-shift deletion included. The hash function is a
parameter; `hash` is the program's. Slot indices and sizes are natural
numbers (capacities do not overflow 64 bits), masked where the program masks
them: the difference `i - k` of two indices wraps there, and only its value
modulo the capacity is used. The one size that would wrap is that of an empty
table from which id 0 is erased: an empty slot has its key, so that `erase`
takes one off. It stays 0 here, and becomes `2 ^ 64 - 1` in the program.

A loop of the program takes at most one pass over the table, so that it has a
pass's number of steps here, and `none` if it has not ended by then.
-/

namespace Pricetime

/-- The interface of an id map, as the book uses it. -/
class IdMap (M : Type) where
  new : Option M
  find : M → OrderId → Option (Option OrderPtr)
  insert : M → OrderId → OrderPtr → Option (Bool × M)
  erase : M → OrderId → Option (Bool × M)
  size : M → Nat
  reserve : M → Nat → Option M

structure Slot (V : Type) where
  key : OrderId := 0
  value : Option V := none
  deriving DecidableEq, Repr

/-- `slots` is meaningful below `cap`. -/
structure OpenAddressMap (V : Type) where
  slots : Nat → Slot V
  cap : Nat
  mask : Nat
  size : Nat

/-- splitmix64's finalizer. -/
def hash (id : OrderId) : UInt64 :=
  let z := id + 0x9E3779B97F4A7C15
  let z := (z ^^^ (z >>> 30)) * 0xBF58476D1CE4E5B9
  let z := (z ^^^ (z >>> 27)) * 0x94D049BB133111EB
  z ^^^ (z >>> 31)

namespace OpenAddressMap

def kEmpty : OrderId := 0

def kInitialCapacity : Nat := 1024

variable {V : Type} (hash : OrderId → UInt64)

/-- The probe loop of `find`, `insert`, `erase` and `rehash`: the first slot
from `i` on that is empty or has key `id`. -/
def probe (slots : Nat → Slot V) (mask : Nat) (id : OrderId) : Nat → Nat → Option Nat
  | 0, _ => none
  | fuel + 1, i =>
    if (slots i).key = id ∨ (slots i).key = kEmpty then some i
    else probe slots mask id fuel ((i + 1) &&& mask)

def find (m : OpenAddressMap V) (id : OrderId) : Option (Option V) := do
  let i ← probe m.slots m.mask id m.cap ((hash id).toNat &&& m.mask)
  if (m.slots i).key = id then some (m.slots i).value else some none

/-- One iteration of `rehash`: the old slot `s` moved to the new table. -/
def rehashSlot (newCap : Nat) (slots : Nat → Slot V) (s : Slot V) : Option (Nat → Slot V) :=
  if s.key = kEmpty then some slots
  else do
    let i ← probe slots (newCap - 1) kEmpty newCap ((hash s.key).toNat &&& (newCap - 1))
    some (Function.update slots i s)

def rehash (m : OpenAddressMap V) (newCap : Nat) : Option (OpenAddressMap V) := do
  let slots ← (List.range m.cap).foldlM (fun slots i => rehashSlot hash newCap slots (m.slots i))
    (fun _ => {})
  some ⟨slots, newCap, newCap - 1, m.size⟩

def new : Option (OpenAddressMap V) := rehash hash ⟨fun _ => {}, 0, 0, 0⟩ kInitialCapacity

/-- The first line of `insert`: the table doubles before it is 70% full. -/
def grow (m : OpenAddressMap V) : Option (OpenAddressMap V) :=
  if (m.size + 1) * 10 ≥ m.cap * 7 then rehash hash m (m.cap * 2) else some m

def insert (m : OpenAddressMap V) (id : OrderId) (value : V) : Option (Bool × OpenAddressMap V) := do
  let m ← grow hash m
  let i ← probe m.slots m.mask id m.cap ((hash id).toNat &&& m.mask)
  if (m.slots i).key = kEmpty then
    some (true, { m with slots := Function.update m.slots i ⟨id, some value⟩, size := m.size + 1 })
  else some (false, m)

/-- Algorithm R: slot `i` is the hole (already emptied), and the scan has
reached `j`. An element whose ideal slot is not cyclically after the hole is
pulled back into it, and its slot is the next hole. -/
def shiftBack (mask : Nat) : Nat → (Nat → Slot V) → Nat → Nat → Option (Nat → Slot V)
  | 0, _, _, _ => none
  | fuel + 1, slots, i, j =>
    let j := (j + 1) &&& mask
    if (slots j).key = kEmpty then some slots
    else
      let k := (hash (slots j).key).toNat &&& mask
      let holeOff := (i + (mask + 1) - k) &&& mask
      let curOff := (j + (mask + 1) - k) &&& mask
      if holeOff ≤ curOff then
        shiftBack mask fuel (Function.update (Function.update slots i (slots j)) j {}) j j
      else shiftBack mask fuel slots i j

def eraseAt (m : OpenAddressMap V) (i : Nat) : Option (OpenAddressMap V) := do
  let slots ← shiftBack hash m.mask m.cap (Function.update m.slots i {}) i i
  some { m with slots := slots, size := m.size - 1 }

def erase (m : OpenAddressMap V) (id : OrderId) : Option (Bool × OpenAddressMap V) := do
  let i ← probe m.slots m.mask id m.cap ((hash id).toNat &&& m.mask)
  if (m.slots i).key = id then do
    let m ← eraseAt hash m i
    some (true, m)
  else some (false, m)

/-- The loop of `reserve`: `want` doubled until `n` is under the load factor. -/
def wantFor (n : Nat) : Nat → Nat → Option Nat
  | 0, _ => none
  | fuel + 1, want => if want * 7 < n * 10 then wantFor n fuel (want * 2) else some want

def reserve (m : OpenAddressMap V) (n : Nat) : Option (OpenAddressMap V) := do
  let want ← wantFor n (n + 1) kInitialCapacity
  if want > m.cap then rehash hash m want else some m

def capacity (m : OpenAddressMap V) : Nat := m.cap

end OpenAddressMap

abbrev OpenAddressIdMap := OpenAddressMap OrderPtr

instance : IdMap OpenAddressIdMap where
  new := OpenAddressMap.new hash
  find := OpenAddressMap.find hash
  insert := OpenAddressMap.insert hash
  erase := OpenAddressMap.erase hash
  size := OpenAddressMap.size
  reserve := OpenAddressMap.reserve hash

structure StdIdMap where
  map : Finmap fun _ : OrderId => OrderPtr := ∅
  deriving DecidableEq

namespace StdIdMap

def find (m : StdIdMap) (id : OrderId) : Option OrderPtr := m.map.lookup id

/-- `emplace` leaves a key that is present alone. -/
def insert (m : StdIdMap) (id : OrderId) (value : OrderPtr) : Bool × StdIdMap :=
  if id ∈ m.map then (false, m) else (true, ⟨m.map.insert id value⟩)

def erase (m : StdIdMap) (id : OrderId) : Bool × StdIdMap := (decide (id ∈ m.map), ⟨m.map.erase id⟩)

def size (m : StdIdMap) : Nat := m.map.keys.card

end StdIdMap

instance : IdMap StdIdMap where
  new := some {}
  find m id := some (m.find id)
  insert m id value := some (m.insert id value)
  erase m id := some (m.erase id)
  size := StdIdMap.size
  reserve m _ := some m

end Pricetime
