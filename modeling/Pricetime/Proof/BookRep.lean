import Pricetime.Proof.Nodes
import Pricetime.Spec.Book

/-!
# The representation of a book

`Rep b T Q` says that book `b` represents the levels `T s` of each side, best
first, with the queues `Q q` of nodes: the ladder tracks the levels, the links
of the nodes form the queues, and each level's aggregates are those of its
queue, modulo their width. A level may be empty, as it may be in the middle of
an operation; in a book at rest none is (`Full`).

Each step on the nodes keeps the relation: `Rep.remove`, `Rep.reduce`,
`Rep.drop` and `Rep.rest`. `absLevels` is the abstract book's view of it.
-/

namespace Pricetime

open Spec (Resting PriceLevel totalQty)

def Order.resting (o : Order) : Resting := ⟨o.id, o.qty, o.participant⟩

theorem Order.resting_eq {o o' : Order} (h : o'.data = o.data) : o'.resting = o.resting := by
  simp only [Order.data, OrderData.mk.injEq] at h
  simp only [Order.resting, h]

/-- A queue's resting orders. -/
def restings (h : Heap) (os : List OrderPtr) : List Resting := os.map fun o => (h.order o).resting

def absLevel (h : Heap) (Q : LevelPtr → List OrderPtr) (q : LevelPtr) : PriceLevel :=
  ⟨(h.level q).price, restings h (Q q)⟩

def absLevels (h : Heap) (T : Side → List LevelPtr) (Q : LevelPtr → List OrderPtr) (s : Side) :
    List PriceLevel :=
  (T s).map (absLevel h Q)

theorem restings_congr {h h' : Heap} {os : List OrderPtr}
    (hd : ∀ o ∈ os, (h'.order o).data = (h.order o).data) : restings h' os = restings h os :=
  List.map_congr_left fun o ho => Order.resting_eq (hd o ho)

theorem min_eq_ite (a b : UInt32) : min a b = if a < b then a else b := by
  rw [Std.min_eq_if]
  by_cases h : a < b
  · rw [if_pos h, if_pos (UInt32.le_of_lt h)]
  · rw [if_neg h]
    split
    · rename_i hle
      exact UInt32.le_antisymm hle (UInt32.not_lt.mp h)
    · rfl

theorem totalQty_append : ∀ xs ys : List Resting, totalQty (xs ++ ys) = totalQty xs + totalQty ys
  | [], ys => by simp [totalQty]
  | x :: xs, ys => by
    rw [List.cons_append, totalQty, totalQty, totalQty_append xs ys, UInt64.add_assoc]

/-- Every level on the ladder has orders. -/
def Full (T : Side → List LevelPtr) (Q : LevelPtr → List OrderPtr) : Prop := ∀ s, ∀ q ∈ T s, Q q ≠ []

namespace OrderBook

variable {L M : Type} [Ladder L] [LawfulLadder L] [IdMap M] [LawfulIdMap M]

structure Rep (b : OrderBook L M) (T : Side → List LevelPtr) (Q : LevelPtr → List OrderPtr) : Prop where
  inv : NodeInv b
  tracks : LawfulLadder.Tracks b.ladder (fun q => (b.heap.level q).price) T
  queue : ∀ q, b.heap.links.IsQueue b.Mapped q (Q q)
  count : ∀ q, (b.heap.level q).orderCount = UInt32.ofNat (Q q).length
  total : ∀ q, (b.heap.level q).totalQty = totalQty (restings b.heap (Q q))
  order : ∀ q, ∀ o ∈ Q q, (b.heap.order o).price = (b.heap.level q).price ∧
    (b.heap.order o).side = levelSide q
  placed : ∀ q, Q q ≠ [] → q ∈ T (levelSide q)

/-- `b'` has the orders' data, the levels' prices, the policy and the prices
of `b`. -/
structure SameData (b b' : OrderBook L M) : Prop where
  data : ∀ o, (b'.heap.order o).data = (b.heap.order o).data
  price : ∀ q, (b'.heap.level q).price = (b.heap.level q).price
  stp : b'.stp = b.stp
  counters : b'.counters = b.counters
  validPrice : Ladder.validPrice b'.ladder = Ladder.validPrice b.ladder

namespace Rep

variable {b : OrderBook L M} {T : Side → List LevelPtr} {Q : LevelPtr → List OrderPtr}

theorem nodup (h : Rep b T Q) (q : LevelPtr) : (Q q).Nodup := (h.queue q).nodup h.inv.links

theorem mapped (h : Rep b T Q) {q : LevelPtr} {o : OrderPtr} (ho : o ∈ Q q) : b.Mapped o :=
  (((h.queue q).mem o).mp ho).1

theorem level_eq (h : Rep b T Q) {q : LevelPtr} {o : OrderPtr} (ho : o ∈ Q q) :
    (b.heap.order o).level = some q :=
  (((h.queue q).mem o).mp ho).2

theorem mapped_iff (h : Rep b T Q) {o : OrderPtr} : b.Mapped o ↔ ∃ q, o ∈ Q q := by
  constructor
  · intro ho
    obtain ⟨q, hq⟩ := h.inv.owned ho
    exact ⟨q, ((h.queue q).mem o).mpr ⟨ho, hq⟩⟩
  · rintro ⟨q, hq⟩
    exact h.mapped hq

theorem queue_inj (h : Rep b T Q) {q r : LevelPtr} {o : OrderPtr} (hq : o ∈ Q q) (hr : o ∈ Q r) :
    q = r :=
  Option.some.inj ((h.level_eq hq).symm.trans (h.level_eq hr))

theorem head_eq (h : Rep b T Q) (q : LevelPtr) : (b.heap.level q).head = (Q q).head? := (h.queue q).head

/-- A level off the ladder holds nothing. -/
theorem blank (h : Rep b T Q) {q : LevelPtr} (hq : q ∉ T (levelSide q)) : (b.heap.level q).Blank := by
  have hQ : Q q = [] := Classical.byContradiction fun e => hq (h.placed q e)
  have h1 := h.count q
  have h2 := h.total q
  have h3 := (h.queue q).head
  have h4 := (h.queue q).tail
  rw [hQ] at h1 h2 h3 h4
  rcases hl : b.heap.level q with ⟨price, totalQty, orderCount, head, tail⟩
  simp only [Heap.links, hl] at h1 h2 h3 h4
  rw [Level.Blank, h1, h2, h3, h4]
  rfl

theorem active (h : Rep b T Q) (hfull : Full T Q) (hb : ∀ q, (Q q).length < 2 ^ 32) :
    Active b.heap.level T := by
  intro q
  rw [h.count]
  constructor
  · intro hc
    refine h.placed q fun e => hc ?_
    rw [e]
    rfl
  · intro hq
    exact ofNat_ne_zero (hb q) fun e => hfull _ q hq (List.length_eq_zero_iff.mp e)

/-! ## Removal -/

/-- Order `o` leaves the queue of `q`. -/
theorem remove (h : Rep b T Q) {q : LevelPtr} {o : OrderPtr} {xs ys : List OrderPtr}
    (hq : Q q = xs ++ o :: ys) :
    ∃ b', b.removeOrder q o = some b' ∧ Rep b' T (Function.update Q q (xs ++ ys)) ∧ SameData b b' ∧
      b'.ladder = b.ladder := by
  have hoq : o ∈ Q q := by rw [hq]; simp
  have ho := h.mapped hoq
  obtain ⟨b', hb', hr⟩ := removeOrder_spec h.inv ho (h.level_eq hoq)
  obtain ⟨hstp, hlad, hcnt, -⟩ := hr.rest
  have hsums := fun r => Level.remove_sums b.heap q o (h.inv.prev_ne ho) r
  have hprice : ∀ r, (b'.heap.level r).price = (b.heap.level r).price := fun r => by
    rw [hr.level]
    exact (hsums r).1
  have hsame : SameData b b' := ⟨hr.data, hprice, hstp, hcnt, by rw [hlad]⟩
  refine ⟨b', hb', ⟨hr.inv, ?_, ?_, ?_, ?_, ?_, ?_⟩, hsame, hlad⟩
  · rw [hlad]
    exact LawfulLadder.congr h.tracks fun _ r _ => hprice r
  · intro r
    refine hr.queue r _ ?_
    by_cases e : r = q
    · subst e
      rw [Function.update_self]
      exact Links.IsQueue.unlink (by rw [← hq]; exact h.queue r) h.inv.links
    · rw [Function.update_of_ne e]
      exact (h.queue r).unlink_other h.inv.links e ho (h.level_eq hoq)
  · intro r
    rw [hr.level, (hsums r).2.1, h.count]
    by_cases e : r = q
    · subst e
      rw [if_pos rfl, Function.update_self, hq]
      simp only [List.length_append, List.length_cons, ← Nat.add_assoc]
      exact ofNat_succ_sub_one _
    · rw [if_neg e, Function.update_of_ne e, UInt32.sub_zero]
  · intro r
    rw [hr.level, (hsums r).2.2, h.total, restings_congr fun y _ => hr.data y]
    by_cases e : r = q
    · subst e
      rw [if_pos rfl, Function.update_self, hq]
      simp only [restings, List.map_append, List.map_cons, totalQty_append, totalQty, Order.resting]
      grind
    · rw [if_neg e, Function.update_of_ne e, UInt64.sub_zero]
  · intro r y hy
    have hyr : y ∈ Q r := by
      by_cases e : r = q
      · subst e
        rw [Function.update_self] at hy
        rw [hq, List.mem_append, List.mem_cons]
        exact (List.mem_append.mp hy).imp_right .inr
      · rwa [Function.update_of_ne e] at hy
    have hd := hr.data y
    simp only [Order.data, OrderData.mk.injEq] at hd
    rw [hprice, hd.2.1, hd.2.2.2.1]
    exact h.order r y hyr
  · intro r hne
    refine h.placed r fun e => hne ?_
    by_cases er : r = q
    · subst er
      rw [hq] at e
      simp at e
    · rw [Function.update_of_ne er, e]

/-! ## Reduction -/

/-- The data of a node after `Level.reduce`. -/
theorem reduce_data (h : Heap) (q : LevelPtr) (o : OrderPtr) (delta : Qty) (y : OrderPtr) :
    ((Level.reduce h q o delta).order y).data =
      if y = o then { (h.order y).data with qty := (h.order y).qty - delta } else (h.order y).data := by
  simp only [Level.reduce, Heap.modifyLevel_order, Heap.modifyOrder_order]
  by_cases hy : y = o
  · subst hy
    simp only [if_true]
    rfl
  · simp only [if_neg hy]

theorem reduce_links (h : Heap) (q : LevelPtr) (o : OrderPtr) (delta : Qty) :
    (Level.reduce h q o delta).links = h.links := by
  simp only [Level.reduce, Heap.links, Heap.modifyLevel_order, Heap.modifyOrder_order,
    Heap.modifyLevel_level, Heap.modifyOrder_level, Links.mk.injEq]
  refine ⟨?_, ?_, ?_, ?_, ?_⟩ <;> funext y <;> split <;> simp_all

theorem toUInt64_sub {a d : Qty} (h : d ≤ a) : (a - d).toUInt64 = a.toUInt64 - d.toUInt64 := by
  have h' : d.toUInt64 ≤ a.toUInt64 := by
    rw [UInt64.le_iff_toNat_le, UInt32.toNat_toUInt64, UInt32.toNat_toUInt64]
    exact UInt32.le_iff_toNat_le.mp h
  refine UInt64.toNat_inj.mp ?_
  rw [UInt64.toNat_sub_of_le _ _ h', UInt32.toNat_toUInt64, UInt32.toNat_sub_of_le _ _ h,
    UInt32.toNat_toUInt64, UInt32.toNat_toUInt64]

theorem reduce_id (h : Heap) (q : LevelPtr) (o : OrderPtr) (delta : Qty) (y : OrderPtr) :
    ((Level.reduce h q o delta).order y).id = (h.order y).id := by
  have := congrArg OrderData.id (reduce_data h q o delta y)
  split at this <;> exact this

/-- Shares off one order. -/
theorem reduce (h : Rep b T Q) {q : LevelPtr} {o : OrderPtr} (hoq : o ∈ Q q) {delta : Qty}
    (hd : delta ≤ (b.heap.order o).qty) :
    Rep { b with heap := Level.reduce b.heap q o delta } T Q := by
  have hdata := reduce_data b.heap q o delta
  have hlinks := reduce_links b.heap q o delta
  have hid := reduce_id b.heap q o delta
  have hlevel : ∀ r, (Level.reduce b.heap q o delta).level r =
      if r = q then { b.heap.level q with totalQty := (b.heap.level q).totalQty - delta.toUInt64 }
      else b.heap.level r := fun r => by
    simp only [Level.reduce, Heap.modifyLevel_level, Heap.modifyOrder_level]
  have hprice : ∀ r, ((Level.reduce b.heap q o delta).level r).price = (b.heap.level r).price :=
    fun r => by
      rw [hlevel]
      split
      · rename_i e; rw [e]
      · rfl
  have hcount : ∀ r, ((Level.reduce b.heap q o delta).level r).orderCount = (b.heap.level r).orderCount :=
    fun r => by
      rw [hlevel]
      split
      · rename_i e; rw [e]
      · rfl
  have hinv : NodeInv { b with heap := Level.reduce b.heap q o delta } := h.inv.congr rfl rfl hid hlinks
  have hmapped : ({ b with heap := Level.reduce b.heap q o delta } : OrderBook L M).Mapped = b.Mapped := by
    funext y
    rw [Mapped, Mapped, hid]
    rfl
  refine ⟨hinv, LawfulLadder.congr h.tracks fun _ r _ => hprice r, ?_, ?_, ?_, ?_, h.placed⟩
  · intro r
    rw [hlinks, hmapped]
    exact h.queue r
  · intro r
    rw [hcount]
    exact h.count r
  · intro r
    by_cases e : r = q
    · subst e
      obtain ⟨xs, ys, hq⟩ := List.append_of_mem hoq
      have hnd := h.nodup r
      rw [hq] at hnd
      obtain ⟨-, hny, hxy⟩ := List.nodup_append.mp hnd
      have hox : ∀ y ∈ xs, y ≠ o := fun y hy e => hxy y hy o List.mem_cons_self e
      have hoy : ∀ y ∈ ys, y ≠ o := fun y hy e => (List.nodup_cons.mp hny).1 (e ▸ hy)
      have hself : ((Level.reduce b.heap r o delta).order o).qty = (b.heap.order o).qty - delta := by
        have := congrArg OrderData.qty (hdata o)
        rwa [if_pos rfl] at this
      have htot := h.total r
      rw [hq] at htot ⊢
      rw [hlevel, if_pos rfl]
      simp only [restings, List.map_append, List.map_cons, totalQty_append, totalQty] at htot ⊢
      rw [htot, List.map_congr_left (fun y hy => Order.resting_eq ((hdata y).trans (if_neg (hox y hy)))),
        List.map_congr_left (fun y hy => Order.resting_eq ((hdata y).trans (if_neg (hoy y hy))))]
      simp only [Order.resting, hself, toUInt64_sub hd]
      grind
    · rw [hlevel, if_neg e, h.total, restings_congr]
      intro y hy
      have hyo : y ≠ o := fun e' => e (h.queue_inj hy (e' ▸ hoq))
      rw [hdata, if_neg hyo]
  · intro r y hy
    have hd := h.order r y hy
    have h1 := congrArg OrderData.price (hdata y)
    have h2 := congrArg OrderData.side (hdata y)
    simp only [Order.data, apply_ite OrderData.price, apply_ite OrderData.side, ite_self] at h1 h2
    rw [hprice, h1, h2]
    exact hd

/-- What the reduction does to the queue as the abstract book sees it. -/
theorem restings_reduce (h : Rep b T Q) {q : LevelPtr} {o : OrderPtr} (hoq : o ∈ Q q) (delta : Qty)
    (r : LevelPtr) :
    restings (Level.reduce b.heap q o delta) (Q r) =
      if r = q then Spec.reduceId (b.heap.order o).id delta (restings b.heap (Q r))
      else restings b.heap (Q r) := by
  have hdata := reduce_data b.heap q o delta
  split
  · rename_i e
    subst e
    rw [Spec.reduceId, restings, restings, List.map_map]
    refine List.map_congr_left fun y hy => ?_
    by_cases hyo : y = o
    · subst hyo
      have := hdata y
      simp only [if_true, Order.data, OrderData.mk.injEq] at this
      simp only [Function.comp, Order.resting, if_true, this]
    · have hne : (b.heap.order y).id ≠ (b.heap.order o).id := fun e =>
        hyo (NodeInv.id_inj (h.mapped hy) (h.mapped hoq) e)
      have hres := Order.resting_eq ((hdata y).trans (if_neg hyo))
      rw [Function.comp, hres, if_neg]
      exact hne
  · rename_i e
    refine restings_congr fun y hy => (hdata y).trans (if_neg ?_)
    rintro rfl
    exact e (h.queue_inj hy hoq)

theorem restings_remove (h : Rep b T Q) {q : LevelPtr} {o : OrderPtr} {xs ys : List OrderPtr}
    (hq : Q q = xs ++ o :: ys) :
    restings b.heap (xs ++ ys) = Spec.dropId (b.heap.order o).id (restings b.heap (Q q)) := by
  have hne : ∀ y ∈ xs, (b.heap.order y).id ≠ (b.heap.order o).id := by
    intro y hy e
    have hnd := h.nodup q
    rw [hq] at hnd
    have hyq : y ∈ Q q := by rw [hq]; exact List.mem_append_left _ hy
    have hoq : o ∈ Q q := by rw [hq]; simp
    have := NodeInv.id_inj (h.mapped hyq) (h.mapped hoq) e
    exact (List.nodup_append.mp hnd).2.2 y hy o List.mem_cons_self this
  rw [hq]
  simp only [restings, List.map_append, List.map_cons, Spec.dropId]
  rw [List.eraseP_append_right]
  · rw [List.eraseP_cons_of_pos (by simp [Order.resting])]
  · intro x hx
    obtain ⟨y, hy, rfl⟩ := List.mem_map.mp hx
    exact fun e => hne y hy (of_decide_eq_true e)

/-! ## Counters and policy -/

theorem setCounters (h : Rep b T Q) (counters : Counters) : Rep { b with counters } T Q :=
  ⟨h.inv.congr rfl rfl (fun _ => rfl) rfl, h.tracks, h.queue, h.count, h.total, h.order, h.placed⟩

theorem setStp (h : Rep b T Q) (stp : SelfTradePolicy) : Rep { b with stp } T Q :=
  ⟨h.inv.congr rfl rfl (fun _ => rfl) rfl, h.tracks, h.queue, h.count, h.total, h.order, h.placed⟩

/-! ## Empty levels -/

/-- A level is taken off the ladder if it is empty. -/
theorem drop (h : Rep b T Q) {s : Side} {q : LevelPtr} (hq : q ∈ T s)
    (hfull : ∀ s', ∀ r ∈ T s', r ≠ q → Q r ≠ []) (hb : ∀ r, (Q r).length < 2 ^ 32)
    (hf : LawfulLadder.Fits (L := L) (T s).length) :
    ∃ b', b.dropIfEmpty s q = some b' ∧
      Rep b' (if Q q = [] then Function.update T s ((T s).erase q) else T) Q ∧
      Full (if Q q = [] then Function.update T s ((T s).erase q) else T) Q ∧
      b'.heap = b.heap ∧ SameData b b' := by
  by_cases hQ : Q q = []
  · have hc : (b.heap.level q).orderCount = 0 := by
      rw [h.count, hQ]
      rfl
    have hact : ∀ r, (b.heap.level r).orderCount ≠ 0 ↔ r ∈ T (levelSide r) ∧ r ≠ q := by
      intro r
      rw [h.count]
      constructor
      · intro hr
        have hne : Q r ≠ [] := fun e => hr (by rw [e]; rfl)
        exact ⟨h.placed r hne, fun e => hne (e ▸ hQ)⟩
      · rintro ⟨hr, hne⟩
        exact ofNat_ne_zero (hb r) fun e => hfull _ r hr hne (List.length_eq_zero_iff.mp e)
    obtain ⟨l', hl', ht⟩ := LawfulLadder.onLevelEmpty_spec h.tracks hq hact hf
    have hside := LawfulLadder.side h.tracks hq
    have hnd := (LawfulLadder.worsening h.tracks s).nodup
    refine ⟨{ b with ladder := l' }, ?_, ?_, ?_, rfl, ?_⟩
    · rw [dropIfEmpty, if_pos hc, hl']
      rfl
    · rw [if_pos hQ]
      refine ⟨h.inv.congr rfl rfl (fun _ => rfl) rfl, ht, h.queue, h.count, h.total, h.order, ?_⟩
      intro r hr
      have hrq : r ≠ q := fun e => hr (e ▸ hQ)
      by_cases hs : levelSide r = s
      · rw [hs, Function.update_self]
        exact (List.mem_erase_of_ne hrq).mpr (hs ▸ h.placed r hr)
      · rw [Function.update_of_ne hs]
        exact h.placed r hr
    · rw [if_pos hQ]
      intro s' r hr
      by_cases hs : s' = s
      · subst hs
        rw [Function.update_self] at hr
        exact hfull s' r (List.mem_of_mem_erase hr) fun e => hnd.not_mem_erase (e ▸ hr)
      · rw [Function.update_of_ne hs] at hr
        refine hfull s' r hr fun e => hs ?_
        rw [← LawfulLadder.side h.tracks hr, e, hside]
    · exact ⟨fun _ => rfl, fun _ => rfl, rfl, rfl, LawfulLadder.onLevelEmpty_frame hl'⟩
  · have hc : (b.heap.level q).orderCount ≠ 0 := by
      rw [h.count]
      exact ofNat_ne_zero (hb q) fun e => hQ (List.length_eq_zero_iff.mp e)
    refine ⟨b, by rw [dropIfEmpty, if_neg hc], ?_, ?_, rfl, ⟨fun _ => rfl, fun _ => rfl, rfl, rfl, rfl⟩⟩
    · rw [if_neg hQ]
      exact h
    · rw [if_neg hQ]
      intro s' r hr
      by_cases e : r = q
      · rw [e]
        exact hQ
      · exact hfull s' r hr e

/-! ## Entry -/

/-- A blank level is given a price. -/
theorem blank_price (h : Rep b T Q) {q : LevelPtr} (hq : q ∉ T (levelSide q)) (price : Price) (r : LevelPtr) :
    ∃ p, Function.update b.heap.level q { price := price } r = { b.heap.level r with price := p } ∧
      (r ≠ q ∨ Q r ≠ [] → p = (b.heap.level r).price) := by
  by_cases e : r = q
  · subst e
    refine ⟨price, ?_, fun hr => ?_⟩
    · rw [Function.update_self, h.blank hq]
    · rcases hr with hr | hr
      · exact absurd rfl hr
      · exact absurd (h.placed r hr) hq
  · exact ⟨_, Function.update_of_ne e _ _, fun _ => rfl⟩

/-- The book once the level for a price has been found or created, and an
order has been entered in its queue. -/
theorem enter (h : Rep b T Q) {id : OrderId} (h0 : id ≠ 0) (hid : b.lookup id = none) {s : Side}
    {price : Price} (qty : Qty) (actor : ParticipantId) {q : LevelPtr} {ladder : L} {level : Levels}
    {T' : Side → List LevelPtr}
    (hg : Ladder.getOrCreate b.ladder b.heap.level s price = some (q, ladder, level))
    (hlevel : ∀ r, ∃ p, level r = { b.heap.level r with price := p } ∧
      (r ≠ q ∨ Q r ≠ [] → p = (b.heap.level r).price))
    (hp : (level q).price = price)
    (ht : LawfulLadder.Tracks ladder (fun r => (level r).price) T')
    (hsub : ∀ s', ∀ r ∈ T s', r ∈ T' s') (hq : q ∈ T' s) (hside : levelSide q = s) :
    ∃ o b', b.rest id s price qty actor = some b' ∧ Rep b' T' (Function.update Q q (Q q ++ [o])) ∧
      b'.stp = b.stp ∧ b'.counters = b.counters ∧
      Ladder.validPrice b'.ladder = Ladder.validPrice b.ladder ∧
      (∀ r, restings b'.heap (Q r) = restings b.heap (Q r)) ∧
      (b'.heap.order o).resting = ⟨id, qty, actor⟩ ∧
      (∀ r, (b'.heap.level r).price = (level r).price) := by
  obtain ⟨hf, hv⟩ := LawfulLadder.getOrCreate_frame hg
  obtain ⟨o, b', hb', hlad, hr⟩ := rest_spec h.inv h0 hid hg hf qty actor
  obtain ⟨hstp, hcnt⟩ := hr.rest
  have hlinks : ({ b.heap with level } : Heap).links = b.heap.links := by
    simp only [Heap.links, Links.mk.injEq, true_and]
    refine ⟨funext fun r => ?_, funext fun r => ?_⟩ <;> obtain ⟨p, e, -⟩ := hlevel r <;> rw [e]
  have hkeep : ∀ r, restings b'.heap (Q r) = restings b.heap (Q r) := fun r =>
    restings_congr fun y hy => hr.old y (h.mapped hy)
  have hnew : (b'.heap.order o).resting = ⟨id, qty, actor⟩ := by
    have := hr.data
    simp only [Order.data, OrderData.mk.injEq] at this
    simp only [Order.resting, this]
  refine ⟨o, b', hb', ⟨hr.inv, ?_, ?_, ?_, ?_, ?_, ?_⟩, hstp, hcnt, by rw [hlad, hv], hkeep, hnew,
    fun r => (hr.sums r).1⟩
  · rw [hlad]
    exact LawfulLadder.congr ht fun _ r _ => (hr.sums r).1
  · intro r
    refine hr.queue r _ ?_
    rw [hlinks]
    by_cases e : r = q
    · subst e
      rw [Function.update_self]
      exact (h.queue r).append h.inv.links hr.fresh
    · rw [Function.update_of_ne e]
      exact (h.queue r).append_other h.inv.links e hr.fresh
  · intro r
    obtain ⟨p, e, -⟩ := hlevel r
    rw [(hr.sums r).2.1, e, h.count]
    by_cases e : r = q
    · subst e
      rw [if_pos rfl, Function.update_self, List.length_append]
      exact (UInt32.ofNat_add _ _).symm
    · rw [if_neg e, Function.update_of_ne e, UInt32.add_zero]
  · intro r
    obtain ⟨p, e, -⟩ := hlevel r
    rw [(hr.sums r).2.2, e, h.total]
    by_cases e : r = q
    · subst e
      rw [if_pos rfl, Function.update_self, restings, restings, List.map_append, totalQty_append]
      refine congrArg₂ _ (congrArg totalQty (hkeep r).symm) ?_
      simp only [List.map_cons, List.map_nil, hnew, totalQty, UInt64.add_zero]
    · rw [if_neg e, Function.update_of_ne e, hkeep, UInt64.add_zero]
  · intro r y hy
    rw [(hr.sums r).1]
    have old : y ∈ Q r → (b'.heap.order y).price = (level r).price ∧ (b'.heap.order y).side = levelSide r := by
      intro hyr
      obtain ⟨p, e, hpe⟩ := hlevel r
      have hd := hr.old y (h.mapped hyr)
      simp only [Order.data, OrderData.mk.injEq] at hd
      rw [hd.2.1, hd.2.2.2.1, e, hpe (.inr (List.ne_nil_of_mem hyr))]
      exact h.order r y hyr
    by_cases e : r = q
    · subst e
      rw [Function.update_self, List.mem_append, List.mem_singleton] at hy
      rcases hy with hy | rfl
      · exact old hy
      · have hd := hr.data
        simp only [Order.data, OrderData.mk.injEq] at hd
        exact ⟨hd.2.1.trans hp.symm, hd.2.2.2.1.trans hside.symm⟩
    · rw [Function.update_of_ne e] at hy
      exact old hy
  · intro r hne
    by_cases e : r = q
    · rw [e, hside]
      exact hq
    · rw [Function.update_of_ne e] at hne
      exact hsub _ r (h.placed r hne)

end Rep

end OrderBook

end Pricetime
