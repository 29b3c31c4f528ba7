import Pricetime.Impl.SpscQueue

/-!
# What the ring is for

A first-in, first-out queue of at most `bound` items, on which a push and a
pop are one step each. `Fifo.Step bound items ev items'` says that it may show
`ev` and have `items'` afterwards.
-/

namespace Pricetime.Spec

namespace Fifo

variable {T : Type}

inductive Step (bound : Nat) : List T → QueueEvent T → List T → Prop
  | quiet (items : List T) : Step bound items .quiet items
  | pushed {items : List T} (value : T) (h : items.length < bound) :
    Step bound items (.pushed value) (items ++ [value])
  | full {items : List T} (h : items.length = bound) : Step bound items .full items
  | popped (value : T) (items : List T) : Step bound (value :: items) (.popped value) items
  | empty : Step bound [] .empty []

inductive Run (bound : Nat) : List T → List (QueueEvent T) → List T → Prop
  | nil (items : List T) : Run bound items [] items
  | cons {items items₁ items₂ : List T} {ev : QueueEvent T} {evs : List (QueueEvent T)}
    (h : Step bound items ev items₁) (hs : Run bound items₁ evs items₂) : Run bound items (ev :: evs) items₂

/-- The values of the successful pushes. -/
def pushes (evs : List (QueueEvent T)) : List T :=
  evs.filterMap fun
    | .pushed value => some value
    | _ => none

/-- The values that the successful pops return. -/
def pops (evs : List (QueueEvent T)) : List T :=
  evs.filterMap fun
    | .popped value => some value
    | _ => none

end Fifo

end Pricetime.Spec
