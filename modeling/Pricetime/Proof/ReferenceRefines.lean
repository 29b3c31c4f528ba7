import Pricetime.Proof.BookRefines
import Pricetime.Proof.ReferenceViews

/-!
# The book agrees with the reference book

`ReferenceBook.Rel n r a`: reference book `r` holds the orders of abstract book
`a`, and `n` orders have come to rest in it. Each operation keeps it
(`Rel.apply`), as long as the sequence number of the next order does not wrap.
A book refines the same abstract book, so the two answer alike and hold the
same orders after every operation.
-/

namespace Pricetime

open Spec (Resting PriceLevel Place)

/-- How many orders an operation may bring to rest. -/
def EntryOp.mayRest : EntryOp → Nat
  | .addLimitAs .. => 1
  | .replace .. => 1
  | _ => 0

/-- What a book holds, and what it has counted. -/
structure Holdings where
  levels : Side → Option (List LevelView)
  openOrders : Nat
  addedQty : UInt64
  tradedQty : UInt64
  canceledQty : UInt64
  selfTradesPrevented : UInt64

namespace ReferenceBook

def holdings (r : ReferenceBook) : Holdings where
  levels s := some (r.levels s)
  openOrders := r.openOrders
  addedQty := r.addedQty
  tradedQty := r.tradedQty
  canceledQty := r.canceledQty
  selfTradesPrevented := r.stpFired

structure Rel (n : Nat) (r : ReferenceBook) (a : Spec.Book) : Prop where
  holds : Holds r.live a
  below : ∀ q ∈ r.live.map RefOrder.seq, q.toNat < n
  next : r.nextSeq = UInt64.ofNat n
  stp : r.stp = a.stp
  counters : a.counters = ⟨r.addedQty, r.tradedQty, r.canceledQty, 0, r.stpFired⟩
  unbounded : r.bounded = false

/-- The book once the order at an index has been cancelled to prevent a self
trade. -/
def killed (r : ReferenceBook) (i : Nat) (x : RefOrder) : ReferenceBook :=
  { r with
    stpFired := r.stpFired + 1
    canceledQty := r.canceledQty + x.qty.toUInt64
    live := r.live.eraseIdx i }

section Loop

variable {r : ReferenceBook} {aggressor : OrderId} {actor : ParticipantId} {side : Side}
  {price : Option Price} {qty : Qty} {i : Nat} {x : RefOrder}

theorem matchLoop_done (fuel : Nat) : matchLoop aggressor actor side price (fuel + 1) r 0 = some (r, 0, []) := by
  rw [matchLoop, if_pos rfl]

theorem matchLoop_own (fuel : Nat) (hq : qty ≠ 0) (hb : r.bestCounterparty side price = some (i, x))
    (hown : r.stpOn actor = true ∧ x.participant = actor) :
    matchLoop aggressor actor side price (fuel + 1) r qty =
      match r.stp with
      | .cancelResting => matchLoop aggressor actor side price fuel (r.killed i x) qty
      | .cancelAggressor => some ({ r with stpFired := r.stpFired + 1 }.countCanceled qty, 0, [])
      | _ => some ((r.killed i x).countCanceled qty, 0, []) := by
  rw [matchLoop, if_neg hq, hb]
  dsimp only
  rw [if_pos hown]
  obtain ⟨live, stp⟩ := r
  cases stp <;> rfl

theorem matchLoop_fill (fuel : Nat) (hq : qty ≠ 0) (hb : r.bestCounterparty side price = some (i, x))
    (hown : ¬ (r.stpOn actor = true ∧ x.participant = actor)) (hle : ¬ qty < x.qty) :
    matchLoop aggressor actor side price (fuel + 1) r qty =
      (matchLoop aggressor actor side price fuel
        { r with tradedQty := r.tradedQty + x.qty.toUInt64, live := r.live.eraseIdx i } (qty - x.qty)).map
        fun m => (m.1, m.2.1, ⟨x.id, aggressor, x.price, x.qty⟩ :: m.2.2) := by
  rw [matchLoop, if_neg hq, hb]
  dsimp only
  rw [if_neg hown, if_neg hle, if_pos (UInt32.sub_self x.qty)]
  rw [Option.map_eq_bind]
  rfl

/-- An order that is not used up uses up the aggressor. -/
theorem matchLoop_part (fuel : Nat) (hq : qty ≠ 0) (hb : r.bestCounterparty side price = some (i, x))
    (hown : ¬ (r.stpOn actor = true ∧ x.participant = actor)) (hlt : qty < x.qty) :
    matchLoop aggressor actor side price (fuel + 2) r qty =
      some ({ r with
        tradedQty := r.tradedQty + qty.toUInt64
        live := r.live.set i { x with qty := x.qty - qty } }, 0, [⟨x.id, aggressor, x.price, qty⟩]) := by
  rw [matchLoop, if_neg hq, hb]
  dsimp only
  rw [if_neg hown, if_pos hlt, if_neg (Spec.sub_ne_zero hlt), UInt32.sub_self, matchLoop_done]
  rfl

end Loop

namespace Rel

variable {n : Nat} {r : ReferenceBook} {a : Spec.Book}

theorem empty : Rel 0 ReferenceBook.unbounded {} :=
  ⟨Holds.empty, (fun _ hq => nomatch hq), rfl, rfl, rfl, rfl⟩

theorem setStp (h : Rel n r a) (p : SelfTradePolicy) : Rel n (r.setSelfTradePolicy p) { a with stp := p } :=
  ⟨h.holds.congr rfl, h.below, h.next, rfl, h.counters, h.unbounded⟩

theorem countAdded (h : Rel n r a) (qty : Qty) : Rel n (r.countAdded qty) (a.countAdded qty) :=
  ⟨h.holds.congr rfl, h.below, h.next, h.stp, by rw [Spec.Book.countAdded, h.counters]; rfl, h.unbounded⟩

theorem countCanceled (h : Rel n r a) (qty : Qty) : Rel n (r.countCanceled qty) (a.countCanceled qty) :=
  ⟨h.holds.congr rfl, h.below, h.next, h.stp, by rw [Spec.Book.countCanceled, h.counters]; rfl, h.unbounded⟩

theorem countTraded (h : Rel n r a) (qty : Qty) :
    Rel n { r with tradedQty := r.tradedQty + qty.toUInt64 } { a with counters := a.counters.trade qty } :=
  ⟨h.holds.congr rfl, h.below, h.next, h.stp, by rw [h.counters]; rfl, h.unbounded⟩

theorem prevent (h : Rel n r a) :
    Rel n { r with stpFired := r.stpFired + 1 } { a with counters := a.counters.prevent } :=
  ⟨h.holds.congr rfl, h.below, h.next, h.stp, by rw [h.counters]; rfl, h.unbounded⟩

/-- The removal of an order, found by its id, -/
theorem erase (h : Rel n r a) {x : RefOrder} (hx : x ∈ r.live) : Rel n (r.erase x.id) (a.remove x.place) :=
  ⟨h.holds.remove hx, fun q hq => h.below q ((List.eraseP_sublist.map _).subset hq), h.next, h.stp,
    h.counters, h.unbounded⟩

section At

variable {xs ys : List RefOrder} {x : RefOrder}

/-- or by its index, -/
theorem removeAt (h : Rel n r a) (hlive : r.live = xs ++ x :: ys) :
    Rel n { r with live := r.live.eraseIdx xs.length } (a.remove x.place) :=
  ⟨h.holds.removeAt hlive, fun q hq => h.below q (((List.eraseIdx_sublist _ _).map _).subset hq), h.next,
    h.stp, h.counters, h.unbounded⟩

/-- and its reduction. -/
theorem reduceAt (h : Rel n r a) (hlive : r.live = xs ++ x :: ys) {take : Qty} (hlt : take < x.qty) :
    Rel n { r with live := r.live.set xs.length { x with qty := x.qty - take } } (a.reduce x.place take) := by
  refine ⟨h.holds.reduceAt hlive hlt, fun q hq => h.below q ?_, h.next, h.stp, h.counters, h.unbounded⟩
  rw [hlive, List.set_append_right _ _ (Nat.le_refl _), Nat.sub_self, List.set_cons_zero, List.map_append,
    List.map_cons] at hq
  rwa [hlive, List.map_append, List.map_cons]

end At

theorem rest (h : Rel n r a) (hn : n < 2 ^ 64) {id : OrderId} {qty : Qty} (h0 : id ≠ 0) (hq : qty ≠ 0)
    (hid : id ∉ a.ids) (side : Side) (price : Price) (actor : ParticipantId) :
    Rel (n + 1) (r.rest id side price qty actor) (a.rest side price ⟨id, qty, actor⟩) := by
  have hnext : r.nextSeq.toNat = n := by
    rw [h.next, UInt64.toNat_ofNat', Nat.mod_eq_of_lt hn]
  refine ⟨h.holds.rest (x := ⟨id, price, qty, side, actor, r.nextSeq⟩) ⟨h0, hq⟩ hid fun q hq => ?_, ?_, ?_,
    h.stp, h.counters, h.unbounded⟩
  · rw [UInt64.lt_iff_toNat_lt, hnext]
    exact h.below q hq
  · intro q hq
    rw [ReferenceBook.rest, List.map_append, List.mem_append] at hq
    rcases hq with hq | hq
    · exact Nat.lt_succ_of_lt (h.below q hq)
    · rw [List.map_singleton, List.mem_singleton] at hq
      rw [hq, hnext]
      exact Nat.lt_succ_self n
  · rw [ReferenceBook.rest, h.next, UInt64.ofNat_add]
    rfl

/-! ## Matching -/

/-- The test for a self trade. -/
theorem prevents_iff (h : Rel n r a) (actor participant : ParticipantId) :
    (r.stpOn actor = true ∧ participant = actor) ↔ Spec.prevents a.stp actor participant = true := by
  simp only [stpOn, h.stp, Spec.prevents, Bool.and_eq_true, decide_eq_true_eq]

theorem matchLoop (aggressor : OrderId) (actor : ParticipantId) (side : Side) (limit : Option Price) :
    ∀ (fuel : Nat) {r : ReferenceBook} {a : Spec.Book} {qty : Qty}, Rel n r a → r.live.length < fuel →
      ∃ r', ReferenceBook.matchLoop aggressor actor side limit fuel r qty =
          some (r', (a.matchOrder aggressor actor side limit qty).2) ∧
        Rel n r' (a.matchOrder aggressor actor side limit qty).1
  | 0, _, _, _, _, hf => absurd hf (Nat.not_lt_zero _)
  | fuel + 1, r, a, qty, h, hf => by
    by_cases hq : qty = 0
    · rw [ReferenceBook.matchLoop, if_pos hq, Spec.Book.matchOrder_stop _ _ _ _ _ _ (.inl hq)]
      exact ⟨r, rfl, h⟩
    have hstop : r.bestCounterparty side limit = none →
        ReferenceBook.matchLoop aggressor actor side limit (fuel + 1) r qty = some (r, qty, []) := fun hb => by
      rw [ReferenceBook.matchLoop, if_neg hq, hb]
    cases hl : a.levels (opposite side) with
    | nil =>
      have hnone : ∀ l ∈ a.levels (opposite side), reaches side limit l.price = false := by
        rw [hl]
        nofun
      rw [hstop (h.holds.best_none r hnone), Spec.Book.matchOrder_stop _ _ _ _ _ _ (.inr hnone)]
      exact ⟨r, rfl, h⟩
    | cons l ls =>
      have hlm : l ∈ a.levels (opposite side) := by
        rw [hl]
        exact List.mem_cons_self
      obtain ⟨p, os⟩ := l
      cases os with
      | nil => exact absurd rfl ((h.holds.wf.side _).level _ hlm).1
      | cons o os =>
        cases hr : reaches side limit p with
        | false =>
          have hnone : ∀ l ∈ a.levels (opposite side), reaches side limit l.price = false := by
            rw [hl]
            exact Holds.reached (hl ▸ (h.holds.wf.side _).sorted) hr
          rw [hstop (h.holds.best_none r hnone), Spec.Book.matchOrder_stop _ _ _ _ _ _ (.inr hnone)]
          exact ⟨r, rfl, h⟩
        | true =>
          obtain ⟨xs, x, ys, hlive, hplace, hbest⟩ := h.holds.best_eq r hl hr
          obtain rfl : x.price = p := congrArg Place.price hplace
          obtain rfl : x.resting = o := congrArg Place.order hplace
          rw [Spec.Book.matchOrder_step aggressor actor hl (h.holds.wf.queue_nodup hlm) hq hr, ← hplace]
          have hm : x ∈ r.live := by
            rw [hlive]
            exact List.mem_append_right _ List.mem_cons_self
          have hlen : (r.live.eraseIdx xs.length).length < fuel := by
            rw [List.length_eraseIdx_of_lt (by rw [hlive, List.length_append, List.length_cons]; omega)]
            have := List.length_pos_of_mem hm
            omega
          by_cases hp : Spec.prevents a.stp actor x.participant = true
          · -- the order is the aggressor's own
            have hkill : Rel n (r.killed xs.length x) _ := (h.prevent.countCanceled x.qty).removeAt hlive
            have hstay := h.prevent.countCanceled qty
            rw [h.stp] at hstay
            rw [matchLoop_own fuel hq hbest ((h.prevents_iff actor x.participant).mpr hp), h.stp,
              if_pos (show Spec.prevents a.stp actor x.resting.participant = true from hp)]
            cases hs : a.stp with rw [hs] at hkill hstay
            | none => simp [Spec.prevents, hs] at hp
            | cancelResting => exact matchLoop aggressor actor side limit fuel hkill hlen
            | cancelAggressor => exact ⟨_, rfl, hstay⟩
            | cancelBoth => exact ⟨_, rfl, hkill.countCanceled qty⟩
          · have hown := fun e => hp ((h.prevents_iff actor x.participant).mp e)
            rw [if_neg (show ¬ Spec.prevents a.stp actor x.resting.participant = true from hp)]
            by_cases hlt : qty < x.qty
            · obtain ⟨fuel, rfl⟩ := Nat.exists_eq_add_one_of_ne_zero (Nat.ne_zero_of_lt hlen)
              rw [matchLoop_part fuel hq hbest hown hlt, if_pos (show qty < x.resting.qty from hlt)]
              exact ⟨_, rfl, (h.countTraded qty).reduceAt hlive hlt⟩
            · obtain ⟨r', hr', h'⟩ := @matchLoop aggressor actor side limit fuel _ _
                (qty - x.qty) ((h.countTraded x.qty).removeAt hlive) hlen
              rw [matchLoop_fill fuel hq hbest hown hlt, hr', if_neg (show ¬ qty < x.resting.qty from hlt)]
              exact ⟨r', rfl, h'⟩

theorem matchOrder (h : Rel n r a) (aggressor : OrderId) (actor : ParticipantId) (side : Side)
    (limit : Option Price) (qty : Qty) :
    ∃ r', r.matchOrder aggressor actor side limit qty =
        some (r', (a.matchOrder aggressor actor side limit qty).2) ∧
      Rel n r' (a.matchOrder aggressor actor side limit qty).1 :=
  matchLoop aggressor actor side limit _ h (Nat.lt_succ_self _)

/-! ## Operations -/

theorem find (h : Rel n r a) (id : OrderId) : a.find id = (r.find id).map RefOrder.place := h.holds.find id

theorem find_isSome (h : Rel n r a) (id : OrderId) : (a.find id).isSome = (r.find id).isSome := by
  rw [h.find, Option.isSome_map]

theorem validPrice (h : Rel n r a) (price : Price) : r.validPrice price = true := by
  rw [ReferenceBook.validPrice, h.unbounded]
  rfl

theorem validate (h : Rel n r a) (id : OrderId) (price : Price) (qty : Qty) :
    r.validate id price qty = a.validate (fun _ => true) id price qty := by
  rw [ReferenceBook.validate, Spec.Book.validate, h.validPrice, h.find_isSome]

/-- The abstract book's prices are not bounded either. -/
theorem addLimitAs (h : Rel n r a) (hn : n < 2 ^ 64) (actor : ParticipantId) (id : OrderId) (side : Side)
    (price : Price) (qty : Qty) :
    ∃ n' r', n' ≤ n + 1 ∧ r.addLimitAs actor id side price qty =
        some ((a.addLimitAs (fun _ => true) actor id side price qty).1, r') ∧
      Rel n' r' (a.addLimitAs (fun _ => true) actor id side price qty).2 := by
  rw [ReferenceBook.addLimitAs, h.validate, Spec.Book.addLimitAs]
  by_cases hv : a.validate (fun _ => true) id price qty = .ok
  · obtain ⟨h0, -, -, hid⟩ := Spec.Book.validate_ok hv
    obtain ⟨r', hr', h'⟩ := (h.countAdded qty).matchOrder id actor side (some price) qty
    have hsub := Spec.Book.ids_sublist
      (Spec.Book.matchOrder_shrinks (a.countAdded qty) id actor side (some price) qty)
    simp only [hv, ne_eq, not_true_eq_false, if_false, hr', Option.bind_eq_bind, Option.bind_some]
    by_cases hleft : ((a.countAdded qty).matchOrder id actor side (some price) qty).2.1 > 0
    · rw [if_pos hleft, if_pos hleft]
      refine ⟨n + 1, _, Nat.le_refl _, rfl, h'.rest hn h0 ?_ (fun e => hid (hsub.subset e)) side price actor⟩
      exact (UInt32.ne_of_lt hleft).symm
    · rw [if_neg hleft, if_neg hleft]
      exact ⟨n, _, Nat.le_succ n, rfl, h'⟩
  · simp only [hv, ne_eq, not_false_eq_true, if_true]
    exact ⟨n, r, Nat.le_succ n, rfl, h⟩

/-- What an order that may not rest does, once it is accepted. -/
theorem takeAs (h : Rel n r a) (actor : ParticipantId) (id : OrderId) (side : Side) (limit : Option Price)
    (qty : Qty) :
    ∃ r', (r.countAdded qty).matchOrder id actor side limit qty =
        some (r', ((a.countAdded qty).matchOrder id actor side limit qty).2) ∧
      Rel n (r'.countCanceled ((a.countAdded qty).matchOrder id actor side limit qty).2.1)
        (((a.countAdded qty).matchOrder id actor side limit qty).1.countCanceled
          ((a.countAdded qty).matchOrder id actor side limit qty).2.1) := by
  obtain ⟨r', hr', h'⟩ := (h.countAdded qty).matchOrder id actor side limit qty
  exact ⟨r', hr', h'.countCanceled _⟩

theorem addIocAs (h : Rel n r a) (actor : ParticipantId) (id : OrderId) (side : Side) (price : Price)
    (qty : Qty) :
    ∃ r', r.addIocAs actor id side price qty =
        some ((a.addIocAs (fun _ => true) actor id side price qty).1, r') ∧
      Rel n r' (a.addIocAs (fun _ => true) actor id side price qty).2 := by
  rw [ReferenceBook.addIocAs, h.validate, Spec.Book.addIocAs]
  by_cases hv : a.validate (fun _ => true) id price qty = .ok
  · obtain ⟨r', hr', h'⟩ := h.takeAs actor id side (some price) qty
    simp only [hv, ne_eq, not_true_eq_false, if_false, hr', Option.bind_eq_bind, Option.bind_some]
    exact ⟨_, rfl, h'⟩
  · simp only [hv, ne_eq, not_false_eq_true, if_true]
    exact ⟨r, rfl, h⟩

theorem addFokAs (h : Rel n r a) (actor : ParticipantId) (id : OrderId) (side : Side) (price : Price)
    (qty : Qty) :
    ∃ r', r.addFokAs actor id side price qty =
        some ((a.addFokAs (fun _ => true) actor id side price qty).1, r') ∧
      Rel n r' (a.addFokAs (fun _ => true) actor id side price qty).2 := by
  rw [ReferenceBook.addFokAs, h.validate, Spec.Book.addFokAs]
  by_cases hv : a.validate (fun _ => true) id price qty = .ok
  · have hscan := h.holds.reachable_lt_iff h.stp side (some price) (Spec.Book.validate_ok hv).2.1 actor
    simp only [hv, ne_eq, not_true_eq_false, if_false]
    by_cases hlt : a.available side (some price) actor < qty.toNat
    · rw [if_pos hlt, if_pos (hscan.mpr hlt)]
      exact ⟨r, rfl, h⟩
    · obtain ⟨r', hr', h'⟩ := h.takeAs actor id side (some price) qty
      rw [if_neg hlt, if_neg fun e => hlt (hscan.mp e), hr']
      exact ⟨_, rfl, h'⟩
  · simp only [hv, ne_eq, not_false_eq_true, if_true]
    exact ⟨r, rfl, h⟩

theorem addMarketAs (h : Rel n r a) (actor : ParticipantId) (id : OrderId) (side : Side) (qty : Qty) :
    ∃ r', r.addMarketAs actor id side qty = some ((a.addMarketAs actor id side qty).1, r') ∧
      Rel n r' (a.addMarketAs actor id side qty).2 := by
  rw [ReferenceBook.addMarketAs, Spec.Book.addMarketAs, h.find_isSome]
  split
  · exact ⟨r, rfl, h⟩
  split
  · exact ⟨r, rfl, h⟩
  split
  · exact ⟨r, rfl, h⟩
  obtain ⟨r', hr', h'⟩ := h.takeAs actor id side none qty
  rw [hr']
  exact ⟨_, rfl, h'⟩

/-- An order found by its id. -/
theorem find_some (h : Rel n r a) {id : OrderId} {x : RefOrder} (hx : r.find id = some x) :
    Rel n ((r.countCanceled x.qty).erase id) (a.cancelOpen x.place) := by
  obtain rfl : x.id = id := by simpa using List.find?_some hx
  exact (h.countCanceled x.qty).erase (List.mem_of_find?_eq_some hx)

theorem cancel (h : Rel n r a) (id : OrderId) :
    ∃ r', r.cancel id = ((a.cancel id).1, r') ∧ Rel n r' (a.cancel id).2 := by
  rw [ReferenceBook.cancel, Spec.Book.cancel, h.find]
  cases hx : r.find id with
  | none => exact ⟨r, rfl, h⟩
  | some x => exact ⟨_, rfl, h.find_some hx⟩

theorem replace (h : Rel n r a) (hn : n < 2 ^ 64) (oldId newId : OrderId) (newPrice : Price) (newQty : Qty) :
    ∃ n' r', n' ≤ n + 1 ∧ r.replace oldId newId newPrice newQty =
        some ((a.replace (fun _ => true) oldId newId newPrice newQty).1, r') ∧
      Rel n' r' (a.replace (fun _ => true) oldId newId newPrice newQty).2 := by
  have stay : ∀ {result : Reply}, ∃ n' r', n' ≤ n + 1 ∧ some (result, r) = some (result, r') ∧ Rel n' r' a :=
    ⟨n, r, Nat.le_succ n, rfl, h⟩
  rw [ReferenceBook.replace, Spec.Book.replace, h.find, h.validPrice]
  cases hx : r.find oldId with
  | none => exact stay
  | some x =>
    simp only [Option.map_some, h.find_isSome]
    split
    · exact stay
    split
    · exact stay
    split
    · exact stay
    split
    · exact stay
    exact (h.find_some hx).addLimitAs hn x.participant newId x.side newPrice newQty

theorem apply (h : Rel n r a) {op : EntryOp} (hn : n + op.mayRest ≤ 2 ^ 64) :
    ∃ n' r', n' ≤ n + op.mayRest ∧ r.apply op = some ((a.apply (fun _ => true) op.toOp).1, r') ∧
      Rel n' r' (a.apply (fun _ => true) op.toOp).2 := by
  have noRest : ∀ {res : Option (Reply × ReferenceBook)} {p : Reply × Spec.Book},
      (∃ r', res = some (p.1, r') ∧ Rel n r' p.2) → ∃ n' r', n' ≤ n ∧ res = some (p.1, r') ∧ Rel n' r' p.2 :=
    fun ⟨r', hr', h'⟩ => ⟨n, r', Nat.le_refl n, hr', h'⟩
  cases op with
  | setSelfTradePolicy p => exact noRest ⟨_, rfl, h.setStp p⟩
  | addLimitAs actor id side price qty => exact h.addLimitAs hn actor id side price qty
  | addIocAs actor id side price qty => exact noRest (h.addIocAs actor id side price qty)
  | addFokAs actor id side price qty => exact noRest (h.addFokAs actor id side price qty)
  | addMarketAs actor id side qty => exact noRest (h.addMarketAs actor id side qty)
  | cancel id =>
    obtain ⟨r', hr', h'⟩ := h.cancel id
    exact noRest ⟨r', congrArg some hr', h'⟩
  | replace oldId newId newPrice newQty => exact h.replace hn oldId newId newPrice newQty

end Rel

end ReferenceBook

namespace OrderBook

def holdings {L M : Type} [Ladder L] [IdMap M] (b : OrderBook L M) : Holdings where
  levels s := b.walk s
  openOrders := b.openOrders
  addedQty := b.counters.addedQty
  tradedQty := b.counters.tradedQty
  canceledQty := b.counters.canceledQty
  selfTradesPrevented := b.counters.selfTradesPrevented

section Agree

variable {L M : Type} [Ladder L] [LawfulLadder L] [IdMap M] [LawfulIdMap M]

/-- Books that hold the same abstract book hold the same. -/
theorem Sim.holdings_eq {b : OrderBook L M} {a : Spec.Book} {n : Nat} {r : ReferenceBook}
    {accepts : Price → Bool} (h : Sim accepts b a) (hw : Within L a) (hr : r.Rel n a) :
    b.holdings = r.holdings := by
  have hcounters : b.counters = a.counters := by
    obtain ⟨T, Q, h⟩ := h
    exact h.counters.symm
  simp only [holdings, ReferenceBook.holdings, h.walk_eq hw, hr.holds.levels_eq, h.openOrders_eq,
    hr.holds.openOrders, ReferenceBook.openOrders, hcounters, hr.counters]

/-- The run lemma: the two machines in lockstep, with room for the sequence
numbers of the orders to come. -/
theorem trace_agrees {P : OrderBook L M → Prop}
    (hP : ∀ {b : OrderBook L M} {a}, Sim (fun _ => true) b a → P b → Within L a) :
    ∀ {ops : List EntryOp} {n : Nat} {b : OrderBook L M} {r : ReferenceBook} {a : Spec.Book},
      Sim (fun _ => true) b a → r.Rel n a → n + (ops.map EntryOp.mayRest).sum ≤ 2 ^ 64 →
      Runs.Along apply P b (ops.map EntryOp.toOp) →
      ∃ outs, Runs.trace (Runs.observed apply holdings) b (ops.map EntryOp.toOp) = some outs ∧
        Runs.trace (Runs.observed ReferenceBook.apply ReferenceBook.holdings) r ops = some outs
  | [], _, _, _, _, _, _, _, _ => ⟨[], rfl, rfl⟩
  | op :: ops, n, b, r, a, h, hr, hn, hp => by
    rw [List.map_cons, List.sum_cons] at hn
    obtain ⟨b', hb', h'⟩ := h.apply (hP h hp.1) op.toOp
    obtain ⟨n', r', hn', hr', hrel⟩ := hr.apply (show n + op.mayRest ≤ 2 ^ 64 by omega)
    have hp' := hp.2 _ _ hb'
    obtain ⟨outs, ho, hor⟩ := trace_agrees hP h' hrel (by omega) hp'
    have hview : b'.holdings = r'.holdings := h'.holdings_eq (hP h' hp'.head) hrel
    refine ⟨((a.apply (fun _ => true) op.toOp).1, b'.holdings) :: outs,
      Runs.trace_cons (Runs.observed_eq hb') ho, ?_⟩
    rw [hview]
    exact Runs.trace_cons (Runs.observed_eq hr') hor

end Agree

/-- The sequence numbers of the reference book count the orders that come to
rest, modulo `2^64`. -/
theorem reference_agrees {b : OrderBook MapLadder OpenAddressIdMap} (hb : new {} = some b)
    (ops : List EntryOp) (hrest : (ops.map EntryOp.mayRest).sum ≤ 2 ^ 64)
    (hfew : Runs.Along apply FewAt b (ops.map EntryOp.toOp)) :
    ∃ outs, Runs.trace (Runs.observed apply holdings) b (ops.map EntryOp.toOp) = some outs ∧
      Runs.trace (Runs.observed ReferenceBook.apply ReferenceBook.holdings) ReferenceBook.unbounded ops =
        some outs := by
  obtain ⟨b₀, h₀, h⟩ := new_sim (M := OpenAddressIdMap) MapLadder.vacant
  cases hb.symm.trans h₀
  exact trace_agrees Sim.within_of_fewAt h ReferenceBook.Rel.empty (by rw [Nat.zero_add]; exact hrest) hfew

/-- A self trade that the policy prevents, inside a sweep. -/
theorem reference_agrees_prevention :
    ∃ (b : OrderBook MapLadder OpenAddressIdMap) (outs : List (Reply × Holdings)), new {} = some b ∧
      Runs.trace (Runs.observed apply holdings) b (List.map EntryOp.toOp
        [.setSelfTradePolicy .cancelResting, .addLimitAs 7 1 .ask 5 10, .addLimitAs 8 2 .ask 6 4,
          .addFokAs 7 3 .bid 6 4]) = some outs ∧
      Runs.trace (Runs.observed ReferenceBook.apply ReferenceBook.holdings) ReferenceBook.unbounded
        [.setSelfTradePolicy .cancelResting, .addLimitAs 7 1 .ask 5 10, .addLimitAs 8 2 .ask 6 4,
          .addFokAs 7 3 .bid 6 4] = some outs := by
  obtain ⟨b, hb, h⟩ := new_sim (M := OpenAddressIdMap) MapLadder.vacant
  obtain ⟨outs, hbook, href⟩ := reference_agrees hb [.setSelfTradePolicy .cancelResting,
    .addLimitAs 7 1 .ask 5 10, .addLimitAs 8 2 .ask 6 4, .addFokAs 7 3 .bid 6 4] (by decide)
    (along_fewAt h (along_few h _ (by decide)))
  exact ⟨b, outs, hb, hbook, href⟩

/-! ## The sequence numbers wrap -/

/-- One sell order rests, of one share at price 0, -/
def Lone (b : OrderBook MapLadder OpenAddressIdMap) : Prop :=
  ∃ a, Sim (fun _ => true) b a ∧ a.stp = .none ∧ a.levels .bid = [] ∧ a.levels .ask = [⟨0, [⟨1, 1, 0⟩]⟩]

/-- in the reference book as the order of arrival `s`. -/
def loneRef (s added canceled : UInt64) : ReferenceBook where
  live := [⟨1, 0, 1, .ask, 0, s⟩]
  nextSeq := s + 1
  addedQty := added
  canceledQty := canceled
  bounded := false

theorem Lone.few {b : OrderBook MapLadder OpenAddressIdMap} (h : b.Lone) : b.Few := by
  obtain ⟨a, h, -, hbid, hask⟩ := h
  rw [h.few_iff, Spec.Book.openOrders, hbid, hask]
  decide

theorem Lone.fewAt {b : OrderBook MapLadder OpenAddressIdMap} (h : b.Lone) : b.FewAt := by
  obtain ⟨a, hsim, -⟩ := id h
  exact hsim.fewAt h.few

/-- The abstract book with one order, but for its counters. -/
theorem lone_eq {a : Spec.Book} (hs : a.stp = .none) (hbid : a.levels .bid = [])
    (hask : a.levels .ask = [⟨0, [⟨1, 1, 0⟩]⟩]) : a = { a with
      stp := .none
      levels := fun | .bid => [] | .ask => [⟨0, [⟨1, 1, 0⟩]⟩] } := by
  obtain ⟨levels, stp, counters⟩ := a
  obtain rfl : stp = .none := hs
  refine congrArg (fun levels => (⟨levels, .none, counters⟩ : Spec.Book)) (funext fun s => ?_)
  cases s with
  | bid => exact hbid
  | ask => exact hask

/-- A replacement by itself leaves the book as it was, and the reference book
with a later order. -/
theorem Lone.replace {b : OrderBook MapLadder OpenAddressIdMap} (h : b.Lone) :
    ∃ b', b.apply (.replace 1 1 0 1) = some ({ result := .ok }, b') ∧ b'.Lone := by
  have hfew := h.few
  obtain ⟨a, h, hs, hbid, hask⟩ := h
  obtain ⟨b', hb', h'⟩ := h.apply (h.within_of_few hfew) (.replace 1 1 0 1)
  rw [lone_eq hs hbid hask] at hb' h'
  exact ⟨b', hb', _, h', rfl, rfl, rfl⟩

theorem loneRef_replace (s added canceled : UInt64) :
    (loneRef s added canceled).apply (.replace 1 1 0 1) =
      some ({ result := .ok }, loneRef (s + 1) (added + 1) (canceled + 1)) := rfl

/-- Two sell orders of one share, at price 0. -/
def pairRef (s q added canceled : UInt64) : ReferenceBook where
  live := [⟨1, 0, 1, .ask, 0, s⟩, ⟨2, 0, 1, .ask, 0, q⟩]
  nextSeq := q + 1
  addedQty := added
  canceledQty := canceled
  bounded := false

/-- The reference book trades with the one of the lower number. -/
theorem pairRef_take {s q : UInt64} (h : q < s) (added canceled : UInt64) :
    ∃ r', (pairRef s q added canceled).apply (.addIocAs 0 3 .bid 0 1) =
      some ({ result := .ok, execs := [⟨2, 3, 0, 1⟩] }, r') := by
  have hbest : (pairRef s q (added + 1) canceled).bestCounterparty .bid (some 0) =
      some (1, ⟨2, 0, 1, .ask, 0, q⟩) := by
    show (if (false || (true && decide (q < s))) = true then _ else _) = _
    rw [decide_eq_true h]
    rfl
  have hown : ¬ ((pairRef s q (added + 1) canceled).stpOn 0 = true ∧ (0 : ParticipantId) = 0) :=
    fun e => Bool.false_ne_true e.1
  have hmatch := @ReferenceBook.matchLoop_fill _ 3 0 .bid (some 0) 1 1 _ 2 (by decide) hbest hown
    (show ¬ (1 : Qty) < 1 by decide)
  rw [show (1 : Qty) - 1 = 0 from rfl, ReferenceBook.matchLoop_done] at hmatch
  show ∃ r', (ReferenceBook.matchLoop 3 0 .bid (some 0) 3 (pairRef s q (added + 1) canceled) 1).bind _ =
    some (_, r')
  rw [hmatch]
  exact ⟨_, rfl⟩

/-- The book trades with the one that came first. -/
theorem Lone.take {b : OrderBook MapLadder OpenAddressIdMap} (h : b.Lone) :
    ∃ b' b'', b.apply (.addLimitAs 0 2 .ask 0 1) = some ({ result := .ok }, b') ∧ b'.FewAt ∧
      b'.apply (.addIocAs 0 3 .bid 0 1) = some ({ result := .ok, execs := [⟨1, 3, 0, 1⟩] }, b'') ∧ b''.FewAt := by
  have hfew := h.few
  obtain ⟨a, h, hs, hbid, hask⟩ := h
  obtain ⟨b', hb', h'⟩ := h.apply (h.within_of_few hfew) (.addLimitAs 0 2 .ask 0 1)
  rw [lone_eq hs hbid hask] at hb' h'
  have hfew' : b'.Few := h'.few_iff.mpr (show 2 < 2 ^ 32 by decide)
  obtain ⟨b'', hb'', h''⟩ := h'.apply (h'.within_of_few hfew') (.addIocAs 0 3 .bid 0 1)
  have hfew'' : b''.Few := h''.few_iff.mpr (show 1 < 2 ^ 32 by decide)
  exact ⟨b', b'', hb', h'.fewAt hfew', hb'', h''.fewAt hfew''⟩

/-- An order replaced `k` times by itself, another one, and one that can trade
with either. -/
def renumbering (k : Nat) : List EntryOp :=
  List.replicate k (.replace 1 1 0 1) ++ [.addLimitAs 0 2 .ask 0 1, .addIocAs 0 3 .bid 0 1]

/-- However often the order has been replaced by itself, the next one has the
lower number if it wraps. -/
theorem Lone.diverges (k : Nat) (s added canceled : UInt64) {b : OrderBook MapLadder OpenAddressIdMap}
    (h : b.Lone) (hwrap : s + UInt64.ofNat k + 1 < s + UInt64.ofNat k) :
    Runs.Along apply FewAt b ((renumbering k).map EntryOp.toOp) ∧
    ¬ ∃ outs, Runs.trace (Runs.observed apply holdings) b ((renumbering k).map EntryOp.toOp) = some outs ∧
      Runs.trace (Runs.observed ReferenceBook.apply ReferenceBook.holdings) (loneRef s added canceled)
        (renumbering k) = some outs := by
  induction k generalizing b s added canceled with
  | zero =>
    obtain ⟨b', b'', hb', hfew', hb'', hfew''⟩ := h.take
    rw [show s + UInt64.ofNat 0 = s from UInt64.add_zero s] at hwrap
    obtain ⟨r'', hr''⟩ := pairRef_take hwrap (added + 1) canceled
    refine ⟨⟨h.fewAt, fun out c hc => ?_⟩, fun hsame => ?_⟩
    · cases hb'.symm.trans hc
      refine ⟨hfew', fun out c hc => ?_⟩
      cases hb''.symm.trans hc
      exact hfew''
    · have hadd : (loneRef s added canceled).apply (.addLimitAs 0 2 .ask 0 1) =
        some ({ result := .ok }, pairRef s (s + 1) (added + 1) canceled) := rfl
      obtain ⟨-, hsame⟩ := Runs.trace_agree_cons (Runs.observed_eq hb') (Runs.observed_eq hadd) hsame
      obtain ⟨e, -⟩ := Runs.trace_agree_cons (Runs.observed_eq hb'') (Runs.observed_eq hr'') hsame
      have hexecs : [(⟨1, 3, 0, 1⟩ : Execution)] = [⟨2, 3, 0, 1⟩] := congrArg (fun out => out.1.execs) e
      exact absurd hexecs (by decide)
  | succ k ih =>
    obtain ⟨b', hb', h'⟩ := h.replace
    have hnext : s + UInt64.ofNat (k + 1) = s + 1 + UInt64.ofNat k := by
      rw [UInt64.ofNat_add, UInt64.add_comm (UInt64.ofNat k), ← UInt64.add_assoc]
      rfl
    rw [hnext] at hwrap
    obtain ⟨hfew, hdiff⟩ := ih (s + 1) (added + 1) (canceled + 1) h' hwrap
    rw [renumbering, List.replicate_succ, List.cons_append, List.map_cons]
    refine ⟨⟨h.fewAt, fun out c hc => ?_⟩, fun hsame => ?_⟩
    · cases hb'.symm.trans hc
      exact hfew
    · exact hdiff (Runs.trace_agree_cons (Runs.observed_eq hb')
        (Runs.observed_eq (loneRef_replace s added canceled)) hsame).2

/-- Once `2^64` orders have come to rest, the reference book numbers the next
one lower than those before it, and trades with it first. -/
theorem reference_wraps :
    ∃ b : OrderBook MapLadder OpenAddressIdMap, new {} = some b ∧
      Runs.Along apply FewAt b ((.addLimitAs 0 1 .ask 0 1 :: renumbering (2 ^ 64 - 1)).map EntryOp.toOp) ∧
      ¬ ∃ outs, Runs.trace (Runs.observed apply holdings) b
          ((.addLimitAs 0 1 .ask 0 1 :: renumbering (2 ^ 64 - 1)).map EntryOp.toOp) = some outs ∧
        Runs.trace (Runs.observed ReferenceBook.apply ReferenceBook.holdings) ReferenceBook.unbounded
          (.addLimitAs 0 1 .ask 0 1 :: renumbering (2 ^ 64 - 1)) = some outs := by
  obtain ⟨b, hb, h⟩ := new_sim (M := OpenAddressIdMap) MapLadder.vacant
  have hfew : b.Few := h.few_iff.mpr (by decide)
  obtain ⟨b', hb', h'⟩ := h.apply (h.within_of_few hfew) (.addLimitAs 0 1 .ask 0 1)
  have hlone : b'.Lone := ⟨_, h', rfl, rfl, rfl⟩
  obtain ⟨hrest, hdiff⟩ := Lone.diverges (2 ^ 64 - 1) 0 1 0 hlone (by decide)
  refine ⟨b, hb, ⟨h.fewAt hfew, fun out c hc => ?_⟩, fun hsame => ?_⟩
  · cases hb'.symm.trans hc
    exact hrest
  · have hadd : ReferenceBook.unbounded.apply (.addLimitAs 0 1 .ask 0 1) =
      some ({ result := .ok }, loneRef 0 1 0) := rfl
    exact hdiff (Runs.trace_agree_cons (Runs.observed_eq hb') (Runs.observed_eq hadd) hsame).2

end OrderBook

end Pricetime
