import Pricetime.Impl.Types

/-!
# Level queues and the order pool

The intrusive queue of a price level (`Level.pushBack`, `Level.reduce`,
`Level.remove`) and the arena of order nodes with its free list
(`OrderPool.alloc`, `OrderPool.release`), as updates of the heap, one
assignment of the source at a time.
-/

namespace Pricetime

namespace Heap

/-- Updates the order node at `o`. -/
def modifyOrder (h : Heap) (o : OrderPtr) (f : Order → Order) : Heap :=
  { h with order := Function.update h.order o (f (h.order o)) }

/-- Updates the level node at `q`. -/
def modifyLevel (h : Heap) (q : LevelPtr) (f : Level → Level) : Heap :=
  { h with level := Function.update h.level q (f (h.level q)) }

@[simp] theorem modifyOrder_level (h : Heap) (o : OrderPtr) (f : Order → Order) :
    (h.modifyOrder o f).level = h.level := rfl

@[simp] theorem modifyLevel_order (h : Heap) (q : LevelPtr) (f : Level → Level) :
    (h.modifyLevel q f).order = h.order := rfl

@[simp] theorem modifyOrder_order (h : Heap) (o p : OrderPtr) (f : Order → Order) :
    (h.modifyOrder o f).order p = if p = o then f (h.order o) else h.order p := by
  simp only [modifyOrder, Function.update_apply]

@[simp] theorem modifyLevel_level (h : Heap) (q p : LevelPtr) (f : Level → Level) :
    (h.modifyLevel q f).level p = if p = q then f (h.level q) else h.level p := by
  simp only [modifyLevel, Function.update_apply]

end Heap

namespace Level

def pushBack (h : Heap) (this : LevelPtr) (o : OrderPtr) : Heap :=
  let tail := (h.level this).tail
  let h := h.modifyOrder o fun x => { x with prev := tail, next := none, level := some this }
  let h := match tail with
    | some t => h.modifyOrder t fun x => { x with next := some o }
    | none => h.modifyLevel this fun l => { l with head := some o }
  h.modifyLevel this fun l =>
    { l with
      tail := some o
      orderCount := l.orderCount + 1
      totalQty := l.totalQty + (h.order o).qty.toUInt64 }

/-- Partial fill: the order keeps its place in the queue. -/
def reduce (h : Heap) (this : LevelPtr) (o : OrderPtr) (delta : Qty) : Heap :=
  let h := h.modifyOrder o fun x => { x with qty := x.qty - delta }
  h.modifyLevel this fun l => { l with totalQty := l.totalQty - delta.toUInt64 }

def remove (h : Heap) (this : LevelPtr) (o : OrderPtr) : Heap :=
  let h := match (h.order o).prev with
    | some p => h.modifyOrder p fun x => { x with next := (h.order o).next }
    | none => h.modifyLevel this fun l => { l with head := (h.order o).next }
  let h := match (h.order o).next with
    | some n => h.modifyOrder n fun x => { x with prev := (h.order o).prev }
    | none => h.modifyLevel this fun l => { l with tail := (h.order o).prev }
  let h := h.modifyLevel this fun l =>
    { l with
      orderCount := l.orderCount - 1
      totalQty := l.totalQty - (h.order o).qty.toUInt64 }
  h.modifyOrder o fun x => { x with prev := none, next := none, level := none }

end Level

/-- Arena of order nodes: `chunks` chunks of `kChunkSize` nodes, the last of
them used up to `usedInLast`, and the intrusive free list's head. -/
structure OrderPool where
  chunks : Nat
  usedInLast : Nat
  total : Nat
  freeHead : Option OrderPtr
  deriving DecidableEq, Repr

namespace OrderPool

def kChunkSize : Nat := 4096

/-- The pool before its first `alloc`; `usedInLast` forces a first chunk. -/
def empty : OrderPool := ⟨0, kChunkSize, 0, none⟩

/-- A new chunk, its nodes value-initialised, if the last one is used up. -/
def grow (pool : OrderPool) (h : Heap) : OrderPool × Heap :=
  if pool.usedInLast = kChunkSize then
    ({ pool with chunks := pool.chunks + 1, usedInLast := 0 },
      { h with order := fun p => if p / kChunkSize = pool.chunks then {} else h.order p })
  else (pool, h)

def alloc (pool : OrderPool) (h : Heap) : OrderPtr × OrderPool × Heap :=
  match pool.freeHead with
  | some o =>
    (o, { pool with freeHead := (h.order o).next }, h.modifyOrder o fun _ => {})
  | none =>
    let (pool, h) := pool.grow h
    ((pool.chunks - 1) * kChunkSize + pool.usedInLast,
      { pool with total := pool.total + 1, usedInLast := pool.usedInLast + 1 }, h)

def release (pool : OrderPool) (h : Heap) (o : OrderPtr) : OrderPool × Heap :=
  ({ pool with freeHead := some o }, h.modifyOrder o fun x => { x with next := pool.freeHead })

/-- Nodes ever handed out from chunks. -/
def allocated (pool : OrderPool) : Nat := pool.total

end OrderPool

end Pricetime
