import Pricetime.Impl.MmSandbox
import Pricetime.Proof.TrackedFeed

/-!
# The orders ahead

`Behind q ahead`: the simulated order `q` has recorded the orders `ahead` and
no others. It does when it is placed (`Behind.place`), and again when it is
told of the shares that left one order (`Behind.removed`).
-/

namespace Pricetime

open Spec (FeedOrder Rel PriceLevel queueIn restingAt)
open Spec.FeedOrder (queue lessen)

/-! ## The walk to a level -/

/-- The queue of a price. -/
def levelQueue (p : Price) (lvls : List LevelView) : List (OrderId × Qty) :=
  ((lvls.find? fun l => l.price = p).map LevelView.orders).getD []

theorem foldl_emplace : ∀ {l m : AheadMap}, ((m ++ l).map Prod.fst).Nodup →
    l.foldl (fun out o => AheadMap.emplace out o.1 o.2) m = m ++ l
  | [], m, _ => (List.append_nil m).symm
  | o :: l, m, h => by
    have hnew : (m.any fun kv => kv.1 = o.1) = false := by
      rw [List.any_eq_false]
      intro kv hkv e
      rw [List.map_append, List.map_cons, List.nodup_append] at h
      exact h.2.2 _ (List.mem_map_of_mem hkv) _ List.mem_cons_self (of_decide_eq_true e)
    have hcons : m ++ o :: l = (m ++ [o]) ++ l := by simp
    rw [List.foldl_cons, AheadMap.emplace, hnew, if_neg Bool.false_ne_true, hcons]
    exact foldl_emplace (hcons ▸ h)

/-- The walk stops past the price, where no level has it. -/
theorem ordersAt_eq {s : Side} {p : Price} : ∀ {lvls : List LevelView},
    (lvls.map LevelView.price).Pairwise (fun p p' => s.better p p' = true) →
      (∀ l ∈ lvls, (l.orders.map Prod.fst).Nodup) → ordersAt s p lvls = levelQueue p lvls
  | [], _, _ => rfl
  | l :: lvls, hs, hn => by
    rw [List.map_cons, List.pairwise_cons] at hs
    have hpast : (if s = .bid then decide (l.price < p) else decide (l.price > p)) = s.better p l.price := by
      cases s <;> rfl
    rw [ordersAt, levelQueue, hpast]
    by_cases hb : s.better p l.price = true
    · have hnone : ∀ l' ∈ l :: lvls, ¬ decide (l'.price = p) = true := by
        intro l' hl' e
        have hpb : s.better p l'.price = true := by
          rcases List.mem_cons.mp hl' with rfl | hl'
          · exact hb
          · exact Side.better_trans hb (hs.1 _ (List.mem_map_of_mem hl'))
        rw [of_decide_eq_true e, Side.better_irrefl] at hpb
        cases hpb
      rw [if_pos hb, List.find?_eq_none.mpr hnone]
      rfl
    rw [if_neg hb]
    by_cases hp : l.price = p
    · rw [if_pos hp, List.find?_cons_of_pos (by exact decide_eq_true hp), foldl_emplace (m := [])
        (hn l List.mem_cons_self)]
      rfl
    · rw [if_neg hp, List.find?_cons_of_neg (by simpa using hp)]
      exact ordersAt_eq hs.2 fun l' hl' => hn l' (List.mem_cons_of_mem _ hl')

/-! ## Orders and entries -/

/-- An order as a queue shows it. -/
def Spec.FeedOrder.entry (o : FeedOrder) : OrderId × Qty := (o.reference, o.shares)

theorem map_entry_fst (os : List FeedOrder) : (os.map FeedOrder.entry).map Prod.fst = os.map FeedOrder.reference := by
  rw [List.map_map]
  rfl

theorem queue_sublist (os : List FeedOrder) (side : Side) (p : Price) : (queue os side p).Sublist os :=
  List.filter_sublist

namespace Spec.Rel

variable {m : MultiBook} {os : List FeedOrder} {symbol : Symbol}

/-- The queues of the one symbol on the list. -/
theorem levelQueue_eq (h : Rel m os) (hone : ∀ o ∈ os, o.symbol = symbol) (side : Side) (p : Price) :
    levelQueue p ((m.book symbol).walk side) = (queue os side p).map FeedOrder.entry := by
  have hview : levelQueue p ((m.book symbol).walk side) =
      (queueIn p ((m.book symbol).levels side)).map fun o => (o.id, o.qty) := by
    rw [levelQueue, Book.walk, List.find?_map, queueIn]
    show (((List.find? (fun l => decide (l.price = p)) _).map PriceLevel.view).map LevelView.orders).getD [] = _
    cases List.find? (fun l => decide (l.price = p)) ((m.book symbol).levels side) <;> rfl
  have hfilter : os.filter (fun o => o.symbol = symbol ∧ o.side = side ∧ o.price = p) = queue os side p :=
    List.filter_congr fun o ho => by simp [hone o ho]
  rw [hview, (h.flat symbol).queue, restingAt_eq, hfilter, List.map_map]
  rfl

theorem ordersAt_eq (h : Rel m os) (hone : ∀ o ∈ os, o.symbol = symbol) (side : Side) (p : Price) :
    ordersAt side p ((m.book symbol).walk side) = (queue os side p).map FeedOrder.entry := by
  rw [← h.levelQueue_eq hone side p]
  refine Pricetime.ordersAt_eq ?_ ?_
  · rw [Book.walk, List.map_map]
    exact ((h.wf symbol).side side).sorted
  · rw [h.walk_eq, FeedOrder.levels]
    intro l hl
    obtain ⟨p', -, rfl⟩ := List.mem_map.mp hl
    have hnd := h.nodup.sublist ((List.filter_sublist (p := fun o : FeedOrder =>
      decide (o.symbol = symbol ∧ o.side = side ∧ o.price = p'))).map FeedOrder.reference)
    rw [List.map_map]
    exact hnd

end Spec.Rel

section Middle

variable {xs ys : List FeedOrder} {o : FeedOrder}

theorem filter_entry (h : ∀ x ∈ xs ++ ys, x.reference ≠ o.reference) :
    ((xs ++ o :: ys).map FeedOrder.entry).filter (fun kv => kv.1 ≠ o.reference) = (xs ++ ys).map FeedOrder.entry := by
  rw [List.filter_map, List.filter_append, List.filter_cons_of_neg (by simp [FeedOrder.entry]), ← List.filter_append]
  exact congrArg _ (List.filter_eq_self.mpr fun x hx => decide_eq_true (h x hx))

theorem update_entry (h : ∀ x ∈ xs ++ ys, x.reference ≠ o.reference) {left : Qty} :
    ((xs ++ o :: ys).map FeedOrder.entry).map (fun kv => if kv.1 = o.reference then (o.reference, left) else kv) =
      (xs ++ { o with shares := left } :: ys).map FeedOrder.entry := by
  have same : ∀ {zs : List FeedOrder}, (∀ z ∈ zs, z ∈ xs ++ ys) →
      zs.map ((fun kv => if kv.1 = o.reference then (o.reference, left) else kv) ∘ FeedOrder.entry) =
        zs.map FeedOrder.entry :=
    fun hzs => List.map_congr_left fun z hz => if_neg (h z (hzs z hz))
  rw [List.map_map, List.map_append, List.map_cons, same fun z => List.mem_append_left ys,
    same fun z => List.mem_append_right xs, List.map_append, List.map_cons]
  exact congrArg (fun e => xs.map FeedOrder.entry ++ e :: ys.map FeedOrder.entry) (if_pos rfl)

end Middle

/-! ## The recorded orders -/

structure Behind (q : QueuePosition) (os : List FeedOrder) : Prop where
  ahead : q.ahead = os.map FeedOrder.entry
  shares : q.sharesAhead = (os.map fun o => o.shares.toUInt64).sum

namespace Behind

variable {q : QueuePosition} {ahead : List FeedOrder}

theorem place (q : QueuePosition) (price : Price) (side : Side) (qty : Qty) (ahead : List FeedOrder) :
    Behind (q.place price side qty (ahead.map FeedOrder.entry)) ahead := by
  have hsum : ∀ (os : List FeedOrder) (n : UInt64), (os.map FeedOrder.entry).foldl (fun n kv => n + kv.2.toUInt64) n =
      n + (os.map fun o => o.shares.toUInt64).sum := by
    intro os
    induction os with
    | nil => exact fun n => (UInt64.add_zero n).symm
    | cons o os ih =>
      intro n
      rw [List.map_cons, List.foldl_cons, ih, List.map_cons, List.sum_cons, UInt64.add_assoc]
      rfl
  exact ⟨rfl, (hsum ahead 0).trans (UInt64.zero_add _)⟩

theorem atFront (h : Behind q ahead) (hq : q.active = true) : q.atFront = true ↔ ahead = [] := by
  rw [QueuePosition.atFront, hq, h.ahead, Bool.true_and, List.isEmpty_iff, List.map_eq_nil_iff]

/-- The sum of the shares ahead does not wrap. -/
theorem toNat_sharesAhead (h : Behind q ahead) (hlen : ahead.length < 2 ^ 32) :
    q.sharesAhead.toNat = ((ahead.map FeedOrder.entry).map fun e => e.2.toNat).sum := by
  have hshort : (ahead.map fun o => o.place.order).length < 2 ^ 32 := by rwa [List.length_map]
  rw [h.shares, ← Spec.Rel.totalQty_eq, toNat_totalQty_of_lt hshort, natTotal, List.map_map, List.map_map]
  rfl

/-- Shares leave an order, whether it is ahead or not. -/
theorem removed (h : Behind q ahead) (hn : (ahead.map FeedOrder.reference).Nodup) (id : OrderId) (shares : Qty) :
    Behind (q.onSharesRemoved id shares) (ahead.filterMap (lessen id shares)) := by
  rw [QueuePosition.onSharesRemoved, ← FeedOrder.take_eq_filterMap]
  by_cases hid : ∃ o ∈ ahead, o.reference = id
  · obtain ⟨o, ho, rfl⟩ := hid
    obtain ⟨xs, ys, rfl, hne⟩ := FeedOrder.exists_middle hn ho
    have hfind : q.ahead.find? (fun kv => kv.1 = o.reference) = some o.entry := by
      rw [h.ahead, List.find?_map]
      exact congrArg _ (FeedOrder.find_middle hne)
    rw [hfind, FeedOrder.take_middle hne]
    dsimp only [FeedOrder.entry]
    rw [← min_eq_ite]
    have hle : min shares o.shares ≤ o.shares := by
      rw [min_eq_ite]
      split
      · exact UInt32.le_of_lt ‹_›
      · exact UInt32.le_refl _
    generalize min shares o.shares = cut at hle
    have hsum : q.sharesAhead - cut.toUInt64 = (xs.map fun o => o.shares.toUInt64).sum +
        ((o.shares - cut).toUInt64 + (ys.map fun o => o.shares.toUInt64).sum) := by
      have hshares := h.shares
      rw [List.map_append, List.map_cons, List.sum_append, List.sum_cons] at hshares
      rw [hshares, OrderBook.Rep.toUInt64_sub hle]
      grind
    by_cases h0 : o.shares - cut = 0
    · rw [if_pos h0, if_pos h0]
      refine ⟨?_, ?_⟩
      · dsimp only
        rw [h.ahead, filter_entry hne, List.append_nil]
      · dsimp only
        rw [hsum, h0, List.append_nil, List.map_append, List.sum_append]
        exact congrArg _ (UInt64.zero_add _)
    · rw [if_neg h0, if_neg h0]
      refine ⟨?_, ?_⟩
      · dsimp only
        rw [h.ahead, update_entry hne, List.append_assoc, List.singleton_append]
      · dsimp only
        rw [hsum, List.append_assoc, List.singleton_append, List.map_append, List.map_cons, List.sum_append,
          List.sum_cons]
  · have habs : ∀ o ∈ ahead, o.reference ≠ id := fun o ho e => hid ⟨o, ho, e⟩
    have hfind : q.ahead.find? (fun kv => kv.1 = id) = none := by
      rw [h.ahead, List.find?_eq_none]
      intro kv hkv e
      obtain ⟨o, ho, rfl⟩ := List.mem_map.mp hkv
      exact habs o ho (of_decide_eq_true e)
    rw [FeedOrder.take_absent shares habs, hfind]
    exact h

end Behind

end Pricetime
