import Pricetime.Impl.Book
import Pricetime.Proof.Framework.Links
import Pricetime.Proof.IdMap
import Pricetime.Proof.Ladder

/-!
# The nodes of a book

`OrderBook.NodeInv`, the part of the book's invariant that does not depend on
how many orders rest at a price or on what the ladder does: the id map maps an
id to a node with that id, the mapped nodes are linked consistently and owned
by a level, and the pool's free list holds nodes that are not mapped.

Two steps change which nodes are mapped. `removeOrder_spec` is the removal of
a node and `rest_spec` the entry of one; both end, and keep the invariant.
`Removed` and `Rested` are their effects, for the layers above.
-/

namespace Pricetime

/-- What a node says of its order, its links apart. -/
structure OrderData where
  id : OrderId
  price : Price
  qty : Qty
  side : Side
  participant : ParticipantId
  deriving DecidableEq, Repr

def Order.data (o : Order) : OrderData := ⟨o.id, o.price, o.qty, o.side, o.participant⟩

/-- The links of the order nodes, and the ends of the level queues. -/
def Heap.links (h : Heap) : Links OrderPtr LevelPtr where
  prev o := (h.order o).prev
  next o := (h.order o).next
  owner o := (h.order o).level
  head q := (h.level q).head
  tail q := (h.level q).tail

/-! ## Queue operations on the heap -/

theorem Heap.modifyOrder_data (h : Heap) (o : OrderPtr) {f : Order → Order} (hf : ∀ x, (f x).data = x.data)
    (y : OrderPtr) : ((h.modifyOrder o f).order y).data = (h.order y).data := by
  rw [modifyOrder_order]
  split
  · rename_i e; rw [hf, e]
  · rfl

namespace Level

variable (h : Heap) (q : LevelPtr) (o : OrderPtr)

theorem pushBack_links (ho : (h.level q).tail ≠ some o) :
    (pushBack h q o).links = h.links.append q o := by
  unfold pushBack Links.append Heap.links
  cases ht : (h.level q).tail with
  | none =>
    simp only [Heap.modifyOrder_order, Heap.modifyOrder_level,
      Heap.modifyLevel_level, Heap.modifyLevel_order, Links.mk.injEq]
    refine ⟨?_, ?_, ?_, ?_, ?_⟩ <;> funext y <;> grind
  | some t =>
    simp only [Heap.modifyOrder_order, Heap.modifyOrder_level,
      Heap.modifyLevel_level, Heap.modifyLevel_order, Links.mk.injEq]
    refine ⟨?_, ?_, ?_, ?_, ?_⟩ <;> funext y <;> grind

theorem pushBack_data (y : OrderPtr) : ((pushBack h q o).order y).data = (h.order y).data := by
  unfold pushBack
  cases ht : (h.level q).tail with
  | none =>
    simp only [Heap.modifyLevel_order]
    refine Heap.modifyOrder_data h o ?_ y
    intro x
    rfl
  | some t =>
    simp only [Heap.modifyLevel_order]
    refine (Heap.modifyOrder_data _ t ?_ y).trans (Heap.modifyOrder_data h o ?_ y)
    · intro x; rfl
    · intro x; rfl

theorem pushBack_sums (r : LevelPtr) :
    ((pushBack h q o).level r).price = (h.level r).price ∧
    ((pushBack h q o).level r).orderCount = (h.level r).orderCount + (if r = q then 1 else 0) ∧
    ((pushBack h q o).level r).totalQty =
      (h.level r).totalQty + (if r = q then (h.order o).qty.toUInt64 else 0) := by
  have hd := congrArg OrderData.qty (pushBack_data h q o o)
  unfold pushBack Order.data at *
  cases ht : (h.level q).tail <;> simp only [ht, Heap.modifyOrder_order, Heap.modifyOrder_level,
      Heap.modifyLevel_level, Heap.modifyLevel_order] at * <;> grind

theorem remove_links (ho : (h.order o).prev ≠ some o) :
    (remove h q o).links = h.links.unlink q o := by
  unfold remove Links.unlink Heap.links
  cases hp : (h.order o).prev with
  | none =>
    simp only [Heap.modifyLevel_order]
    cases hn : (h.order o).next <;>
    · simp only [Heap.modifyOrder_order, Heap.modifyOrder_level,
        Heap.modifyLevel_level, Heap.modifyLevel_order, Links.mk.injEq]
      refine ⟨?_, ?_, ?_, ?_, ?_⟩ <;> funext y <;> grind
  | some p =>
    have hop : o ≠ p := fun e => ho (by rw [hp, ← e])
    simp only [Heap.modifyOrder_order, if_neg hop]
    cases hn : (h.order o).next <;>
    · simp only [Heap.modifyOrder_order, Heap.modifyOrder_level,
        Heap.modifyLevel_level, Heap.modifyLevel_order, Links.mk.injEq]
      refine ⟨?_, ?_, ?_, ?_, ?_⟩ <;> funext y <;> grind

theorem remove_data (y : OrderPtr) : ((remove h q o).order y).data = (h.order y).data := by
  unfold remove
  refine (Heap.modifyOrder_data _ o ?_ y).trans ?_
  · intro x; rfl
  simp only [Heap.modifyLevel_order]
  split
  · refine (Heap.modifyOrder_data _ _ ?_ y).trans ?_
    · intro x; rfl
    split
    · exact Heap.modifyOrder_data _ _ (by intro x; rfl) y
    · rfl
  · simp only [Heap.modifyLevel_order]
    split
    · exact Heap.modifyOrder_data _ _ (by intro x; rfl) y
    · rfl

theorem remove_sums (ho : (h.order o).prev ≠ some o) (r : LevelPtr) :
    ((remove h q o).level r).price = (h.level r).price ∧
    ((remove h q o).level r).orderCount = (h.level r).orderCount - (if r = q then 1 else 0) ∧
    ((remove h q o).level r).totalQty =
      (h.level r).totalQty - (if r = q then (h.order o).qty.toUInt64 else 0) := by
  unfold remove
  cases hp : (h.order o).prev with
  | none =>
    simp only [Heap.modifyLevel_order]
    cases hn : (h.order o).next <;>
      simp only [Heap.modifyOrder_order, Heap.modifyOrder_level, Heap.modifyLevel_level,
        Heap.modifyLevel_order] <;> grind
  | some p =>
    have hop : o ≠ p := fun e => ho (by rw [hp, ← e])
    simp only [Heap.modifyOrder_order, if_neg hop]
    cases hn : (h.order o).next <;>
      simp only [Heap.modifyOrder_order, Heap.modifyOrder_level, Heap.modifyLevel_level,
        Heap.modifyLevel_order] <;> grind

end Level

/-- The links after a level was created or found. -/
theorem LevelFrame.valid {q : LevelPtr} {level' : Levels} {h : Heap} {live : OrderPtr → Prop}
    (hf : LevelFrame q h.level level') (hv : h.links.Valid live) :
    ({ h with level := level' } : Heap).links.Valid live := by
  have split : ∀ {α : Type} (f : Level → α), (f (level' q) = f (h.level q) →
      (fun r => f (level' r)) = fun r => f (h.level r)) := by
    intro α f hq
    funext r
    by_cases hr : r = q
    · rw [hr, hq]
    · rw [hf.other r hr]
  rcases hf.ends with ⟨hh, ht⟩ | ⟨hh, ht⟩
  · exact hv.congr (fun _ _ => rfl) (fun _ _ => rfl) (fun _ _ => rfl) (split Level.head hh)
      (split Level.tail ht)
  · refine (hv.clear q).congr (fun _ _ => rfl) (fun _ _ => rfl) (fun _ _ => rfl) ?_ ?_
    · funext r
      by_cases hr : r = q
      · simp [Heap.links, Links.clear, hr, hh]
      · simp [Heap.links, Links.clear, hr, hf.other r hr]
    · funext r
      by_cases hr : r = q
      · simp [Heap.links, Links.clear, hr, ht]
      · simp [Heap.links, Links.clear, hr, hf.other r hr]

/-! ## The invariant of the nodes -/

/-- The released nodes, in the order of the free list. -/
def OrderPool.Frees (pool : OrderPool) (h : Heap) (fs : List OrderPtr) : Prop :=
  pool.freeHead = fs.head? ∧ Links.Path (fun o => (h.order o).next) fs none

/-- The free list holds used nodes that are not live. -/
def OrderPool.FreeOk (pool : OrderPool) (h : Heap) (live : OrderPtr → Prop) : Prop :=
  ∃ fs, pool.Frees h fs ∧ fs.Nodup ∧ ∀ o ∈ fs, ¬ live o ∧ o < pool.total

/-- All chunks but the last are used up. -/
def OrderPool.Arena (pool : OrderPool) : Prop :=
  pool.total + kChunkSize = pool.chunks * kChunkSize + pool.usedInLast ∧ pool.usedInLast ≤ kChunkSize

theorem OrderPool.arena_empty : OrderPool.empty.Arena := by
  refine ⟨?_, Nat.le_refl kChunkSize⟩
  show 0 + kChunkSize = 0 * kChunkSize + kChunkSize
  rw [Nat.zero_mul]

/-- A node from the pool: live nodes keep what they hold. -/
theorem OrderPool.alloc_spec {pool : OrderPool} {h : Heap} {live : OrderPtr → Prop} (ha : pool.Arena)
    (hu : ∀ {o}, live o → o < pool.total) (hf : pool.FreeOk h live) :
    ∃ o pool' h', pool.alloc h = (o, pool', h') ∧ ¬ live o ∧ o < pool'.total ∧
      pool.total ≤ pool'.total ∧ h'.level = h.level ∧ (∀ y, live y → h'.order y = h.order y) ∧
      pool'.Arena ∧ pool'.FreeOk h' fun y => y = o ∨ live y := by
  obtain ⟨fs, ⟨hfh, hfp⟩, hfn, hfu⟩ := hf
  cases fs with
  | cons o fs =>
    obtain ⟨hof, hfn⟩ := List.nodup_cons.mp hfn
    obtain ⟨hlo, hot⟩ := hfu o List.mem_cons_self
    refine ⟨o, { pool with freeHead := (h.order o).next }, h.modifyOrder o fun _ => {}, ?_, hlo, hot,
      Nat.le_refl _, rfl, fun y hy => ?_, ha, fs, ⟨?_, ?_⟩, hfn, fun f hf => ?_⟩
    · simp only [alloc, hfh, List.head?_cons]
    · have hne : y ≠ o := fun e => hlo (e ▸ hy)
      rw [Heap.modifyOrder_order, if_neg hne]
    · exact hfp.1.trans (Option.or_none)
    · refine hfp.2.congr fun y hy => ?_
      have hne : y ≠ o := fun e => hof (e ▸ hy)
      rw [Heap.modifyOrder_order, if_neg hne]
    · obtain ⟨h1, h2⟩ := hfu f (List.mem_cons_of_mem _ hf)
      exact ⟨fun e => e.elim (fun e => hof (e ▸ hf)) h1, h2⟩
  | nil =>
    -- a fresh node: the one after all those handed out so far
    have grown : ∃ pool₁ h₁, pool.grow h = (pool₁, h₁) ∧ pool₁.freeHead = none ∧
        pool₁.total = pool.total ∧ pool.total + kChunkSize = pool₁.chunks * kChunkSize + pool₁.usedInLast ∧
        pool₁.usedInLast < kChunkSize ∧ h₁.level = h.level ∧
        ∀ y, y < pool.total → h₁.order y = h.order y := by
      obtain ⟨ha1, ha2⟩ := ha
      by_cases hg : pool.usedInLast = kChunkSize
      · refine ⟨{ pool with chunks := pool.chunks + 1, usedInLast := 0 },
          { h with order := fun p => if p / kChunkSize = pool.chunks then {} else h.order p },
          if_pos hg, hfh, rfl, ?_, (by decide : 0 < kChunkSize), rfl, fun y hy => ?_⟩
        · show pool.total + kChunkSize = (pool.chunks + 1) * kChunkSize + 0
          rw [Nat.add_mul]
          omega
        · have hlt : y < pool.chunks * kChunkSize := by omega
          have := (Nat.div_lt_iff_lt_mul (by decide : 0 < kChunkSize)).mpr hlt
          exact if_neg (Nat.ne_of_lt this)
      · exact ⟨pool, h, if_neg hg, hfh, rfl, ha1, by omega, rfl, fun _ _ => rfl⟩
    obtain ⟨pool₁, h₁, hg, hfree, htot, har, hlt, hlev, hkeep⟩ := grown
    obtain ⟨c, hc⟩ : ∃ c, pool₁.chunks = c + 1 := by
      refine Nat.exists_eq_succ_of_ne_zero fun h0 => ?_
      rw [h0] at har
      omega
    have haddr : (pool₁.chunks - 1) * kChunkSize + pool₁.usedInLast = pool.total := by
      rw [hc, Nat.add_mul] at har
      rw [hc, Nat.add_sub_cancel]
      omega
    have hnl : ¬ live pool.total := fun e => Nat.lt_irrefl _ (hu e)
    refine ⟨pool.total, { pool₁ with total := pool₁.total + 1, usedInLast := pool₁.usedInLast + 1 }, h₁,
      ?_, hnl, Nat.lt_succ_of_le (Nat.le_of_eq htot.symm), Nat.le_succ_of_le (Nat.le_of_eq htot.symm), hlev,
      fun y hy => hkeep y (hu hy), ?_, [],
      ⟨hfree, trivial⟩, List.nodup_nil, fun f hf => nomatch hf⟩
    · rw [alloc, hfh]
      simp only [List.head?_nil, hg, haddr]
    · refine ⟨?_, hlt⟩
      simp only
      omega

namespace OrderBook

section Rests

variable {L M : Type} [IdMap M] (b : OrderBook L M) (id : OrderId)

/-- Whether an order rests in the book. -/
def Rests : Prop := ∃ o, b.findOrder id = some (some o)

/-- An order rests with `qty` shares left. -/
def Holds (qty : Qty) : Prop := ∃ o, b.findOrder id = some (some o) ∧ (b.heap.order o).qty = qty

end Rests

variable {L M : Type} [IdMap M] [LawfulIdMap M]

def lookup (b : OrderBook L M) (id : OrderId) : Option OrderPtr := LawfulIdMap.lookup b.orders id

/-- The id map maps the node's id to the node. -/
def Mapped (b : OrderBook L M) (o : OrderPtr) : Prop := b.lookup (b.heap.order o).id = some o

structure NodeInv (b : OrderBook L M) : Prop where
  ok : LawfulIdMap.Ok b.orders
  id : ∀ {id o}, b.lookup id = some o → (b.heap.order o).id = id
  links : b.heap.links.Valid b.Mapped
  owned : ∀ {o}, b.Mapped o → ∃ q, (b.heap.order o).level = some q
  used : ∀ {o}, b.Mapped o → o < b.pool.total
  free : b.pool.FreeOk b.heap b.Mapped
  arena : b.pool.Arena
  count : ∃ all : List OrderPtr, all.Nodup ∧ (∀ o, o ∈ all ↔ b.Mapped o) ∧ all.length = b.openOrders

namespace NodeInv

variable {b : OrderBook L M}

theorem mapped (h : NodeInv b) {id : OrderId} {o : OrderPtr} (hl : b.lookup id = some o) : b.Mapped o := by
  rw [Mapped, h.id hl]
  exact hl

theorem find_eq (h : NodeInv b) (id : OrderId) : IdMap.find b.orders id = some (b.lookup id) :=
  LawfulIdMap.find_eq h.ok id

theorem id_inj {o p : OrderPtr} (ho : b.Mapped o) (hp : b.Mapped p)
    (e : (b.heap.order o).id = (b.heap.order p).id) : o = p := by
  rw [Mapped, e] at ho
  exact Option.some.inj (ho.symm.trans hp)

theorem prev_ne (h : NodeInv b) {o : OrderPtr} (ho : b.Mapped o) : (b.heap.order o).prev ≠ some o :=
  h.links.prev_ne ho

/-- The invariant is about what the id map holds, the pool and the order
nodes' ids and links. -/
theorem congr_lookup (h : NodeInv b) {b' : OrderBook L M} (hok : LawfulIdMap.Ok b'.orders)
    (lk : b'.lookup = b.lookup) (hs : b'.openOrders = b.openOrders) (hp : b'.pool = b.pool)
    (hi : ∀ o, (b'.heap.order o).id = (b.heap.order o).id) (hl : b'.heap.links = b.heap.links) :
    NodeInv b' := by
  have mp : b'.Mapped = b.Mapped := by funext o; rw [Mapped, lk, hi, Mapped]
  have nx : (fun o => (b'.heap.order o).next) = fun o => (b.heap.order o).next := congrArg Links.next hl
  have ow : ∀ o, (b'.heap.order o).level = (b.heap.order o).level := congrFun (congrArg Links.owner hl)
  refine ⟨hok, ?_, by rw [hl, mp]; exact h.links, ?_, ?_, ?_, by rw [hp]; exact h.arena, ?_⟩
  · intro id o e
    rw [hi]
    exact h.id (by rw [← lk]; exact e)
  · intro o e
    rw [ow]
    exact h.owned (by rw [← mp]; exact e)
  · intro o e
    rw [hp]
    exact h.used (by rw [← mp]; exact e)
  · simp only [OrderPool.FreeOk, OrderPool.Frees, hp, nx, mp]
    exact h.free
  · rw [mp, hs]
    exact h.count

theorem congr (h : NodeInv b) {b' : OrderBook L M} (ho : b'.orders = b.orders) (hp : b'.pool = b.pool)
    (hi : ∀ o, (b'.heap.order o).id = (b.heap.order o).id) (hl : b'.heap.links = b.heap.links) :
    NodeInv b' :=
  h.congr_lookup (by rw [ho]; exact h.ok) (by funext id; rw [lookup, ho, lookup])
    (by rw [openOrders, ho, openOrders]) hp hi hl

end NodeInv

/-! ## Removal -/

/-- `b'` is `b` without node `o` of level `q`. -/
structure Removed (b : OrderBook L M) (q : LevelPtr) (o : OrderPtr) (b' : OrderBook L M) : Prop where
  inv : NodeInv b'
  mapped : ∀ y, b'.Mapped y ↔ b.Mapped y ∧ y ≠ o
  lookup : b'.lookup = Function.update b.lookup (b.heap.order o).id none
  data : ∀ y, (b'.heap.order y).data = (b.heap.order y).data
  level : b'.heap.level = (Level.remove b.heap q o).level
  queue : ∀ r xs, (b.heap.links.unlink q o).IsQueue (fun y => b.Mapped y ∧ y ≠ o) r xs →
    b'.heap.links.IsQueue b'.Mapped r xs
  openOrders : b'.openOrders + 1 = b.openOrders
  rest : b'.stp = b.stp ∧ b'.ladder = b.ladder ∧ b'.counters = b.counters ∧ b'.pool.total = b.pool.total

theorem removeOrder_spec {b : OrderBook L M} (h : NodeInv b) {q : LevelPtr} {o : OrderPtr}
    (ho : b.Mapped o) (hq : (b.heap.order o).level = some q) :
    ∃ b', b.removeOrder q o = some b' ∧ Removed b q o b' := by
  have hlinks := Level.remove_links b.heap q o (h.prev_ne ho)
  have hdata := Level.remove_data b.heap q o
  have hid : ∀ y, ((Level.remove b.heap q o).order y).id = (b.heap.order y).id := fun y =>
    congrArg OrderData.id (hdata y)
  obtain ⟨m', hm', ok, hl, hs⟩ := LawfulIdMap.erase_spec h.ok ho
  let h' := (Level.remove b.heap q o).modifyOrder o fun x => { x with next := b.pool.freeHead }
  let b' : OrderBook L M := { b with orders := m', pool := { b.pool with freeHead := some o }, heap := h' }
  have hb' : b.removeOrder q o = some b' := by
    simp only [removeOrder, hid, hm', OrderPool.release, Option.bind_eq_bind, Option.bind_some]
    rfl
  have hdata' : ∀ y, (h'.order y).data = (b.heap.order y).data := fun y => by
    refine (Heap.modifyOrder_data _ o ?_ y).trans (hdata y)
    intro x; rfl
  have hid' : ∀ y, (h'.order y).id = (b.heap.order y).id := fun y => congrArg OrderData.id (hdata' y)
  have lk : b'.lookup = Function.update b.lookup (b.heap.order o).id none := hl
  have mp : ∀ y, b'.Mapped y ↔ b.Mapped y ∧ y ≠ o := by
    intro y
    rw [Mapped, lk, hid']
    by_cases e : (b.heap.order y).id = (b.heap.order o).id
    · rw [e, Function.update_self]
      exact ⟨nofun, fun ⟨hy, hne⟩ => absurd (NodeInv.id_inj hy ho e) hne⟩
    · rw [Function.update_of_ne e]
      exact ⟨fun hy => ⟨hy, fun e' => e (by rw [e'])⟩, fun hy => hy.1⟩
  -- off the removed node, the links are those of `unlink`
  have off : ∀ y, y ≠ o → h'.order y = (Level.remove b.heap q o).order y := fun y hy => by
    simp only [h', Heap.modifyOrder_order, if_neg hy]
  have hprev : ∀ y, y ≠ o → h'.links.prev y = (b.heap.links.unlink q o).prev y := fun y hy => by
    rw [← hlinks]; exact congrArg Order.prev (off y hy)
  have hnext : ∀ y, y ≠ o → h'.links.next y = (b.heap.links.unlink q o).next y := fun y hy => by
    rw [← hlinks]; exact congrArg Order.next (off y hy)
  have howner : ∀ y, y ≠ o → h'.links.owner y = (b.heap.links.unlink q o).owner y := fun y hy => by
    rw [← hlinks]; exact congrArg Order.level (off y hy)
  have hhead : h'.links.head = (b.heap.links.unlink q o).head := by rw [← hlinks]; rfl
  have htail : h'.links.tail = (b.heap.links.unlink q o).tail := by rw [← hlinks]; rfl
  have valid : b'.heap.links.Valid b'.Mapped := by
    rw [show b'.Mapped = fun y => b.Mapped y ∧ y ≠ o from funext fun y => propext (mp y)]
    exact (h.links.unlink ho hq).congr (fun y hy => hprev y hy.2) (fun y hy => hnext y hy.2)
      (fun y hy => howner y hy.2) hhead htail
  refine ⟨b', hb', ⟨ok, ?_, valid, ?_, ?_, ?_, h.arena, ?_⟩, mp, lk, hdata', rfl, ?_, hs,
    rfl, rfl, rfl, rfl⟩
  · intro id y e
    rw [lk] at e
    by_cases hi : id = (b.heap.order o).id
    · rw [hi, Function.update_self] at e
      cases e
    · rw [Function.update_of_ne hi] at e
      exact (hid' y).trans (h.id e)
  · intro y hy
    obtain ⟨hy, hne⟩ := (mp y).mp hy
    obtain ⟨r, hr⟩ := h.owned hy
    refine ⟨r, (howner y hne).trans ?_⟩
    simp only [Links.unlink, hne, if_false]
    exact hr
  · intro y hy
    exact h.used ((mp y).mp hy).1
  · obtain ⟨fs, ⟨hfh, hfp⟩, hfn, hfu⟩ := h.free
    refine ⟨o :: fs, ⟨rfl, ?_, ?_⟩, List.nodup_cons.mpr ⟨fun hm => (hfu o hm).1 ho, hfn⟩, ?_⟩
    · simp only [b', h', Heap.modifyOrder_order, if_true, Option.or_none]
      exact hfh
    · refine hfp.congr fun y hy => ?_
      have hne : y ≠ o := fun e => (hfu y hy).1 (e ▸ ho)
      refine (hnext y hne).trans ?_
      have hp : b.heap.links.prev o ≠ some y := fun e => (hfu y hy).1 (h.links.prev ho e).1
      simp only [Links.unlink, hne, hp, if_false]
      rfl
    · intro y hy
      rcases List.mem_cons.mp hy with rfl | hy
      · exact ⟨fun hm => ((mp y).mp hm).2 rfl, h.used ho⟩
      · exact ⟨fun hm => (hfu y hy).1 ((mp y).mp hm).1, (hfu y hy).2⟩
  · obtain ⟨all, hn, hall, hlen⟩ := h.count
    refine ⟨all.erase o, hn.erase o, fun y => ?_, ?_⟩
    · rw [hn.mem_erase_iff, hall, mp, and_comm]
    · have := List.length_erase_add_one ((hall o).mpr ho)
      simp only [OrderBook.openOrders] at hlen ⊢
      show _ = IdMap.size m'
      omega
  · intro r xs hxs
    refine hxs.congr mp (fun y hy => hnext y hy.2) (fun y hy => howner y hy.2) ?_ ?_
    · rw [hhead]
    · rw [htail]

/-! ## Entry -/

/-- `b'` is `b` with a node `o` of data `d` at the end of the queue of `q`,
the levels having become `level` before. -/
structure Rested (b : OrderBook L M) (level : Levels) (q : LevelPtr) (d : OrderData) (o : OrderPtr)
    (b' : OrderBook L M) : Prop where
  inv : NodeInv b'
  fresh : ¬ b.Mapped o
  mapped : ∀ y, b'.Mapped y ↔ y = o ∨ b.Mapped y
  lookup : b'.lookup = Function.update b.lookup d.id (some o)
  data : (b'.heap.order o).data = d
  old : ∀ y, b.Mapped y → (b'.heap.order y).data = (b.heap.order y).data
  sums : ∀ r, (b'.heap.level r).price = (level r).price ∧
    (b'.heap.level r).orderCount = (level r).orderCount + (if r = q then 1 else 0) ∧
    (b'.heap.level r).totalQty = (level r).totalQty + (if r = q then d.qty.toUInt64 else 0)
  queue : ∀ r xs, (({ b.heap with level } : Heap).links.append q o).IsQueue
    (fun y => y = o ∨ b.Mapped y) r xs → b'.heap.links.IsQueue b'.Mapped r xs
  openOrders : b'.openOrders = b.openOrders + 1
  rest : b'.stp = b.stp ∧ b'.counters = b.counters

/-- The nodes of a book with one more id. -/
theorem NodeInv.mapped_insert {b b' : OrderBook L M} (h : NodeInv b) {id : OrderId} {o : OrderPtr}
    (hid : b.lookup id = none) (hl : b'.lookup = Function.update b.lookup id (some o))
    (hnew : (b'.heap.order o).id = id) (hold : ∀ y, b.Mapped y → (b'.heap.order y).id = (b.heap.order y).id)
    (y : OrderPtr) : b'.Mapped y ↔ y = o ∨ b.Mapped y := by
  by_cases hy : y = o
  · subst hy
    rw [Mapped, hl, hnew, Function.update_self]
    exact ⟨fun _ => .inl rfl, fun _ => rfl⟩
  rw [Mapped, hl, or_iff_right hy]
  constructor
  · intro e
    by_cases hi : (b'.heap.order y).id = id
    · rw [hi, Function.update_self] at e
      exact absurd (Option.some.inj e).symm hy
    · rw [Function.update_of_ne hi] at e
      exact h.mapped e
  · intro hm
    rw [hold y hm, Function.update_of_ne]
    · exact hm
    · intro e
      rw [Mapped, e, hid] at hm
      cases hm

theorem rest_spec [Ladder L] {b : OrderBook L M} (h : NodeInv b) {id : OrderId} (h0 : id ≠ 0)
    (hid : b.lookup id = none) {side : Side} {price : Price} {q : LevelPtr} {ladder : L}
    {level : Levels} (hg : Ladder.getOrCreate b.ladder b.heap.level side price = some (q, ladder, level))
    (hf : LevelFrame q b.heap.level level) (qty : Qty) (actor : ParticipantId) :
    ∃ o b', b.rest id side price qty actor = some b' ∧ b'.ladder = ladder ∧
      Rested b level q ⟨id, price, qty, side, actor⟩ o b' := by
  obtain ⟨o, pool, h₁, halloc, hfresh, hot, hle, hlev, hkeep, harena, hfree⟩ :=
    OrderPool.alloc_spec (h := { b.heap with level }) h.arena h.used h.free
  have hvalid := hf.valid h.links
  have hne : ∀ {y}, b.Mapped y → y ≠ o := fun hy e => hfresh (e ▸ hy)
  -- the new node before it is linked
  let h₂ := h₁.modifyOrder o fun x =>
    { x with id := id, price := price, qty := qty, side := side, participant := actor }
  let h₃ := Level.pushBack h₂ q o
  have h₂o : (h₂.order o).data = ⟨id, price, qty, side, actor⟩ := by
    simp only [h₂, Heap.modifyOrder_order, if_true, Order.data]
  have h₂y : ∀ y, b.Mapped y → h₂.order y = b.heap.order y := fun y hy => by
    simp only [h₂, Heap.modifyOrder_order, if_neg (hne hy), hkeep y hy]
  have hlev₂ : h₂.level = level := hlev
  have hval₂ : h₂.links.Valid b.Mapped := by
    refine hvalid.congr (fun y hy => ?_) (fun y hy => ?_) (fun y hy => ?_) ?_ ?_
    · exact congrArg Order.prev (h₂y y hy)
    · exact congrArg Order.next (h₂y y hy)
    · exact congrArg Order.level (h₂y y hy)
    · funext r; exact congrArg Level.head (congrFun hlev₂ r)
    · funext r; exact congrArg Level.tail (congrFun hlev₂ r)
  have htail : (h₂.level q).tail ≠ some o := fun e => hfresh (hval₂.tail e).1
  have hlinks : h₃.links = h₂.links.append q o := Level.pushBack_links h₂ q o htail
  have hdata : ∀ y, (h₃.order y).data = (h₂.order y).data := Level.pushBack_data h₂ q o
  have hvalid₃ : h₃.links.Valid fun y => y = o ∨ b.Mapped y := by
    rw [hlinks]
    exact hval₂.append q hfresh
  obtain ⟨m', hm', ok, hl, hs⟩ := LawfulIdMap.insert_spec h.ok h0 hid o
  let b' : OrderBook L M := { b with ladder, pool, orders := m', heap := h₃ }
  have hb' : b.rest id side price qty actor = some b' := by
    simp only [rest, hg, halloc, Option.bind_eq_bind, Option.bind_some, hm']
    rfl
  have hold : ∀ y, b.Mapped y → (h₃.order y).data = (b.heap.order y).data := fun y hy => by
    rw [hdata, h₂y y hy]
  have hnew : (h₃.order o).data = ⟨id, price, qty, side, actor⟩ := (hdata o).trans h₂o
  have lk : b'.lookup = Function.update b.lookup id (some o) := hl
  have mp : ∀ y, b'.Mapped y ↔ y = o ∨ b.Mapped y := h.mapped_insert hid lk (congrArg OrderData.id hnew)
    fun y hy => congrArg OrderData.id (hold y hy)
  have hmp : b'.Mapped = fun y => y = o ∨ b.Mapped y := funext fun y => propext (mp y)
  refine ⟨o, b', hb', rfl, ⟨ok, ?_, by rw [hmp]; exact hvalid₃, ?_, ?_, ?_, harena, ?_⟩, hfresh, mp, lk,
    hnew, hold, ?_, ?_, hs, rfl, rfl⟩
  · intro id' y e
    rw [lk] at e
    by_cases hi : id' = id
    · rw [hi, Function.update_self] at e
      rw [hi, ← Option.some.inj e]
      exact congrArg OrderData.id hnew
    · rw [Function.update_of_ne hi] at e
      exact (congrArg OrderData.id (hold y (h.mapped e))).trans (h.id e)
  · intro y hy
    have howner : ∀ z, (h₃.order z).level = (h₂.links.append q o).owner z := fun z => by
      rw [← hlinks]; rfl
    rcases (mp y).mp hy with rfl | hm
    · exact ⟨q, by rw [howner]; simp [Links.append]⟩
    · obtain ⟨r, hr⟩ := h.owned hm
      refine ⟨r, (howner y).trans ?_⟩
      simp only [Links.append, hne hm, if_false, Heap.links, h₂y y hm]
      exact hr
  · intro y hy
    rcases (mp y).mp hy with rfl | hm
    · exact hot
    · exact Nat.lt_of_lt_of_le (h.used hm) hle
  · obtain ⟨fs, ⟨hfh, hfp⟩, hfn, hfu⟩ := hfree
    refine ⟨fs, ⟨hfh, hfp.congr fun y hy => ?_⟩, hfn, fun y hy => ?_⟩
    · obtain ⟨hyo, hym⟩ := not_or.mp (hfu y hy).1
      have ht : (h₂.level q).tail ≠ some y := fun e => hym (hval₂.tail e).1
      have hnext : (h₃.order y).next = (h₂.links.append q o).next y := by rw [← hlinks]; rfl
      refine hnext.trans ?_
      simp only [Links.append, Heap.links, ht, hyo, if_false, h₂, Heap.modifyOrder_order]
    · rw [mp]
      exact hfu y hy
  · obtain ⟨all, hn, hall, hlen⟩ := h.count
    refine ⟨o :: all, List.nodup_cons.mpr ⟨fun hm => hfresh ((hall o).mp hm), hn⟩, fun y => ?_, ?_⟩
    · rw [List.mem_cons, hall, mp]
    · rw [List.length_cons, hlen]
      exact hs.symm
  · intro r
    obtain ⟨h1, h2, h3⟩ := Level.pushBack_sums h₂ q o r
    rw [hlev₂] at h1 h2 h3
    rw [show (h₂.order o).qty = qty from congrArg OrderData.qty h₂o] at h3
    exact ⟨h1, h2, h3⟩
  · intro r xs hxs
    have hfields : ∀ y, y = o ∨ b.Mapped y →
        (h₃.links.next y = (({ b.heap with level } : Heap).links.append q o).next y ∧
          h₃.links.owner y = (({ b.heap with level } : Heap).links.append q o).owner y) := by
      intro y hy
      rw [hlinks]
      simp only [Links.append, Heap.links, hlev₂]
      rcases hy with rfl | hm
      · have : (level q).tail ≠ some y := by rw [← hlev₂]; exact htail
        simp [this]
      · simp [hne hm, h₂y y hm]
    refine hxs.congr mp (fun y hy => (hfields y hy).1) (fun y hy => (hfields y hy).2) ?_ ?_
    · rw [hlinks]
      simp only [Links.append, Heap.links, hlev₂]
      rfl
    · rw [hlinks]
      simp only [Links.append, Heap.links, hlev₂]

/-! ## The empty book -/

/-- A new book has no nodes. -/
theorem new_inv [Ladder L] (ladder : L) : ∃ b : OrderBook L M, new ladder = some b ∧ NodeInv b ∧
    (∀ id, b.lookup id = none) ∧ b.ladder = ladder ∧ b.stp = .none ∧ b.counters = {} ∧ b.heap = {} := by
  obtain ⟨m₀, h₀, hok₀, hl₀, hs₀⟩ := LawfulIdMap.new_spec (M := M)
  obtain ⟨m, hm, hok, hl, hs⟩ := LawfulIdMap.reserve_spec hok₀ (2 ^ 16)
  have hnone : ∀ id, LawfulIdMap.lookup m id = none := fun id => by rw [hl, hl₀]
  have hdead : ∀ o, ¬ ({ ladder, orders := m } : OrderBook L M).Mapped o := fun o e => by
    rw [Mapped, lookup, hnone] at e
    cases e
  refine ⟨{ ladder, orders := m }, ?_, ?_, hnone, rfl, rfl, rfl, rfl⟩
  · simp only [new, h₀, hm, Option.bind_eq_bind, Option.bind_some]
  · refine ⟨hok, fun e => ?_, ⟨fun h => absurd h (hdead _), fun h => absurd h (hdead _), nofun, nofun,
      ⟨fun _ => 0, fun h => absurd h (hdead _)⟩⟩, fun h => absurd h (hdead _), fun h => absurd h (hdead _),
      ⟨[], ⟨rfl, trivial⟩, List.nodup_nil, nofun⟩, OrderPool.arena_empty, ⟨[], List.nodup_nil, fun o => ?_, ?_⟩⟩
    · rw [lookup, hnone] at e
      cases e
    · exact ⟨nofun, fun h => absurd h (hdead o)⟩
    · exact (hs.trans hs₀).symm

end OrderBook

end Pricetime
