import Pricetime.Proof.BookInvariant
import Pricetime.Proof.Places

/-!
# Order types that come to the same

An immediate-or-cancel order does what a limit order does that is cancelled at
once (`Spec.Book.cancel_entered`), and a market order what an
immediate-or-cancel order does whose price reaches every level
(`Spec.Book.addMarketAs_eq`). Both hold of abstract books as an equality, and
so of any two books in simulation with them (`Alike.of_sim`).
-/

namespace Pricetime

namespace Spec

/-! ## An order that comes and goes -/

theorem dropId_append {id : OrderId} {os : List Resting} (h : ∀ o ∈ os, o.id ≠ id) {o : Resting} (ho : o.id = id) :
    dropId id (os ++ [o]) = os := by
  rw [dropId, List.eraseP_append_right _ fun x hx => by simpa using h x hx]
  simp [ho]

/-- What comes to a side goes from it again. -/
theorem modifyAt_insertAt {s : Side} {p : Price} {o : Resting} : ∀ {ls : List PriceLevel}, (∀ l ∈ ls, l.orders ≠ []) →
    o.id ∉ ids ls → modifyAt p (dropId o.id) (insertAt s p o ls) = ls
  | [], _, _ => by simp [insertAt, modifyAt, dropId, keep]
  | l :: ls, hne, hid => by
    have hl : ∀ x ∈ l.orders, x.id ≠ o.id := fun x hx e =>
      hid (mem_ids.mpr ⟨l, List.mem_cons_self, x, hx, e⟩)
    have hls : o.id ∉ ids ls := fun h => by
      obtain ⟨l', hl', hx⟩ := mem_ids.mp h
      exact hid (mem_ids.mpr ⟨l', List.mem_cons_of_mem _ hl', hx⟩)
    rw [insertAt]
    by_cases hp : l.price = p
    · rw [if_pos hp, modifyAt, if_pos hp, dropId_append hl rfl, keep, if_neg (hne l List.mem_cons_self)]
      rfl
    rw [if_neg hp]
    split
    · rw [modifyAt, if_neg hp, modifyAt_insertAt (fun x hx => hne x (List.mem_cons_of_mem _ hx)) hls]
    · rw [modifyAt, if_pos rfl, ← List.nil_append [o], dropId_append (fun _ hx => absurd hx List.not_mem_nil) rfl,
        keep, if_pos rfl]
      rfl

/-- Levels meet an aggressor by its reach over them alone. -/
theorem matchLevels_congr {reach reach' : Price → Bool} (policy : SelfTradePolicy) (aggressor : OrderId)
    (actor : ParticipantId) : ∀ {ls : List PriceLevel}, (∀ l ∈ ls, reach l.price = reach' l.price) →
      ∀ (qty : Qty) (c : Counters), matchLevels policy aggressor actor reach ls qty c =
        matchLevels policy aggressor actor reach' ls qty c
  | [], _, _, _ => rfl
  | l :: ls, h, qty, c => by
    have ih := matchLevels_congr policy aggressor actor fun x hx => h x (List.mem_cons_of_mem _ hx)
    rw [matchLevels, matchLevels, h l List.mem_cons_self]
    simp only [ih]

namespace Book

variable {a : Book}

theorem rest_remove (hw : a.Wf) (s : Side) (p : Price) {o : Resting} (hid : o.id ∉ a.ids) :
    (a.rest s p o).remove ⟨s, p, o⟩ = a := by
  rw [remove, rest]
  dsimp only
  rw [setLevels_self, modifyAt_insertAt (fun l hl => ((hw.side s).level l hl).1)
    fun h => hid (mem_ids.mpr ⟨s, h⟩)]
  simp only [setLevels, Function.update_idem, Function.update_eq_self]

theorem rest_find (hw : a.Wf) (s : Side) (p : Price) {o : Resting} (ho : o.Ok) (hid : o.id ∉ a.ids) :
    (a.rest s p o).find o.id = some ⟨s, p, o⟩ := by
  refine (find_eq_some_iff (hw.rest ho hid s p).nodup).mpr ⟨?_, rfl⟩
  exact (mem_places_rest hw ho hid).mpr (.inr rfl)

theorem setCounters_rest (a : Book) (counters : Counters) (s : Side) (p : Price) (o : Resting) :
    { a.rest s p o with counters } = ({ a with counters } : Book).rest s p o := rfl

theorem countCanceled_zero (a : Book) : a.countCanceled 0 = a := by
  rw [countCanceled, Counters.cancel]
  simp

/-- A limit order, and its cancellation. -/
theorem cancel_entered (hw : a.Wf) {id : OrderId} (h0 : id ≠ 0) (hid : id ∉ a.ids) (actor : ParticipantId)
    (side : Side) (price : Price) (qty : Qty) :
    ((a.entered id actor side price qty).cancel id).2 = a.taken id actor side (some price) qty := by
  have hm : ((a.countAdded qty).matchOrder id actor side (some price) qty).1.Wf := (hw.setCounters _).matchOrder ..
  have hfree : id ∉ ((a.countAdded qty).matchOrder id actor side (some price) qty).1.ids := fun h =>
    hid ((ids_sublist (entered_shrinks a id actor side price qty)).subset h)
  rw [entered, taken]
  generalize (a.countAdded qty).matchOrder id actor side (some price) qty = m at hm hfree ⊢
  by_cases hleft : m.2.1 > 0
  · have ho : Resting.Ok ⟨id, m.2.1, actor⟩ := ⟨h0, UInt32.pos_iff_ne_zero.mp hleft⟩
    rw [if_pos hleft, cancel, rest_find hm side price (o := ⟨id, m.2.1, actor⟩) ho hfree]
    show ({ m.1.rest side price ⟨id, m.2.1, actor⟩ with counters := _ } : Book).remove _ = _
    rw [setCounters_rest]
    exact rest_remove (hm.setCounters _) side price hfree
  · rw [if_neg hleft, cancel, find_eq_none_iff.mpr hfree,
      Classical.not_not.mp fun e => hleft (UInt32.pos_iff_ne_zero.mpr e), countCanceled_zero]

theorem matchOrder_congr {side : Side} {limit limit' : Option Price}
    (h : ∀ l ∈ a.levels (opposite side), reaches side limit l.price = reaches side limit' l.price)
    (aggressor : OrderId) (actor : ParticipantId) (qty : Qty) :
    a.matchOrder aggressor actor side limit qty = a.matchOrder aggressor actor side limit' qty := by
  rw [matchOrder, matchOrder, matchLevels_congr a.stp aggressor actor h]

/-- A market order, and one with a price that reaches every level. -/
theorem addMarketAs_eq {accepts : Price → Bool} {side : Side} {price : Price} (hp : accepts price = true)
    (hreach : ∀ l ∈ a.levels (opposite side), crosses side price l.price = true) (actor : ParticipantId)
    (id : OrderId) (qty : Qty) :
    a.addMarketAs actor id side qty = a.addIocAs accepts actor id side price qty := by
  have halike : ∀ l ∈ (a.countAdded qty).levels (opposite side),
      reaches side none l.price = reaches side (some price) l.price := fun l hl => (hreach l hl).symm
  have hm : (a.countAdded qty).matchOrder id actor side none qty =
      (a.countAdded qty).matchOrder id actor side (some price) qty :=
    matchOrder_congr halike id actor qty
  rw [addMarketAs, addIocAs]
  by_cases h0 : id = 0
  · simp only [validate, h0, if_true, ne_eq, reduceCtorEq, not_false_eq_true]
  by_cases hq : qty = 0
  · simp only [validate, h0, hq, if_true, if_false, ne_eq, reduceCtorEq, not_false_eq_true]
  by_cases hd : (a.find id).isSome = true
  · simp only [validate, h0, hq, hp, hd, Bool.not_true, Bool.false_eq_true, if_true, if_false, ne_eq, reduceCtorEq,
      not_false_eq_true]
  · simp only [validate, h0, hq, hp, hd, hm, Bool.not_true, Bool.false_eq_true, if_false, ne_eq, not_true_eq_false]

end Book

end Spec

namespace OrderBook

variable {L M : Type} [Ladder L] [IdMap M]

/-- Where an order rests, and whose it is. -/
def placeOf (b : OrderBook L M) (id : OrderId) : Option (Option Spec.Place) :=
  (b.findOrder id).map fun o => o.map fun o =>
    ⟨(b.heap.order o).side, (b.heap.order o).price, (b.heap.order o).resting⟩

/-- Two books that show the same: their sides level by level and order by
order, their best levels, every order with its owner, and the counters. -/
structure Alike (b b' : OrderBook L M) : Prop where
  walk : ∀ s, ∃ ls, b.walk s = some ls ∧ b'.walk s = some ls
  best : ∀ s, (b.best s).map (fun l => DepthLevel.mk l.price l.totalQty l.orderCount) =
    (b'.best s).map fun l => DepthLevel.mk l.price l.totalQty l.orderCount
  place : ∀ id, ∃ pl, b.placeOf id = some pl ∧ b'.placeOf id = some pl
  openOrders : b.openOrders = b'.openOrders
  counters : b.counters = b'.counters
  stp : b.stp = b'.stp

variable [LawfulLadder L] [LawfulIdMap M]

theorem Sim.placeOf_eq {accepts : Price → Bool} {b : OrderBook L M} {a : Spec.Book} (h : Sim accepts b a)
    (id : OrderId) : b.placeOf id = some (a.find id) := by
  rw [placeOf, findOrder]
  rcases h.find_cases id with ⟨hb, ha⟩ | ⟨o, hb, -, ha⟩
  · rw [hb, ha]
    rfl
  · rw [hb, ha]
    rfl

theorem Alike.of_sim {accepts : Price → Bool} {b b' : OrderBook L M} {a : Spec.Book} (h : Sim accepts b a)
    (h' : Sim accepts b' a) (hw : Within L a) : Alike b b' where
  walk s := ⟨_, h.walk_eq hw s, h'.walk_eq hw s⟩
  best s := (h.best_eq s).trans (h'.best_eq s).symm
  place id := ⟨_, h.placeOf_eq id, h'.placeOf_eq id⟩
  openOrders := h.openOrders_eq.trans h'.openOrders_eq.symm
  counters := by
    obtain ⟨T, Q, h⟩ := h
    obtain ⟨T', Q', h'⟩ := h'
    exact h.counters.symm.trans h'.counters
  stp := by
    obtain ⟨T, Q, h⟩ := h
    obtain ⟨T', Q', h'⟩ := h'
    exact h.stp.symm.trans h'.stp

/-- An immediate-or-cancel order answers as the limit order, and leaves what
that leaves once it is cancelled. -/
def IocIsLimitCancel (b : OrderBook L M) (actor : ParticipantId) (id : OrderId) (side : Side) (price : Price)
    (qty : Qty) : Prop :=
  ∃ reply b₁ b₂, b.addIocAs actor id side price qty = some (reply, b₁) ∧
    b.addLimitAs actor id side price qty = some (reply, b₂) ∧
    (reply.result ≠ .ok → Alike b₁ b₂) ∧
    (reply.result = .ok → ∃ reply' b₃, b₂.cancel id = some (reply', b₃) ∧ Alike b₁ b₃)

/-- A market order answers as the immediate-or-cancel order at `price`, and
leaves what that leaves. -/
def MarketIsIoc (b : OrderBook L M) (actor : ParticipantId) (id : OrderId) (side : Side) (price : Price)
    (qty : Qty) : Prop :=
  ∃ reply b₁ b₂, b.addMarketAs actor id side qty = some (reply, b₁) ∧
    b.addIocAs actor id side price qty = some (reply, b₂) ∧ Alike b₁ b₂

namespace Sim

variable {accepts : Price → Bool} {b : OrderBook L M} {a : Spec.Book}

theorem iocIsLimitCancel (h : Sim accepts b a) (hwf : a.Wf) {actor : ParticipantId} {id : OrderId} {side : Side}
    {price : Price} {qty : Qty} (hfew : Runs.Along OrderBook.apply Few b [.addLimitAs actor id side price qty]) :
    b.IocIsLimitCancel actor id side price qty := by
  have hw := h.within_of_few hfew.1
  obtain ⟨b₁, hb₁, h₁⟩ := h.addIocAs hw actor id side price qty
  obtain ⟨b₂, hb₂, h₂⟩ := h.addLimitAs hw actor id side price qty
  have hw₂ := h₂.within_of_few (hfew.2 _ _ hb₂)
  by_cases hok : a.validate accepts id price qty = .ok
  · obtain ⟨h0, -, -, hid⟩ := Spec.Book.validate_ok hok
    have hioc : a.addIocAs accepts actor id side price qty =
        ({ result := .ok, execs := ((a.countAdded qty).matchOrder id actor side (some price) qty).2.2 },
          a.taken id actor side (some price) qty) := by
      simp only [Spec.Book.addIocAs, hok, ne_eq, not_true_eq_false, if_false]
      rfl
    have hlimit : a.addLimitAs accepts actor id side price qty =
        ({ result := .ok, execs := ((a.countAdded qty).matchOrder id actor side (some price) qty).2.2 },
          a.entered id actor side price qty) := by
      simp only [Spec.Book.addLimitAs, hok, ne_eq, not_true_eq_false, if_false]
      rfl
    rw [hioc] at hb₁ h₁
    rw [hlimit] at hb₂ h₂ hw₂
    obtain ⟨b₃, hb₃, h₃⟩ := h₂.cancel hw₂ id
    rw [Spec.Book.cancel_entered hwf h0 hid] at h₃
    exact ⟨_, b₁, b₂, hb₁, hb₂, fun hne => absurd rfl hne, fun _ =>
      ⟨_, b₃, hb₃, .of_sim h₁ h₃ (hw.shrinks (Spec.Book.taken_shrinks a id actor side _ qty))⟩⟩
  · have hioc : a.addIocAs accepts actor id side price qty = ({ result := a.validate accepts id price qty }, a) := by
      simp only [Spec.Book.addIocAs, ne_eq, hok, not_false_eq_true, if_true]
    have hlimit : a.addLimitAs accepts actor id side price qty =
        ({ result := a.validate accepts id price qty }, a) := by
      simp only [Spec.Book.addLimitAs, ne_eq, hok, not_false_eq_true, if_true]
    rw [hioc] at hb₁ h₁
    rw [hlimit] at hb₂ h₂
    exact ⟨_, b₁, b₂, hb₁, hb₂, fun _ => .of_sim h₁ h₂ hw, fun e => absurd e hok⟩

theorem marketIsIoc (h : Sim accepts b a) (hw : Within L a) (actor : ParticipantId) (id : OrderId) {side : Side}
    {price : Price} (hp : accepts price = true)
    (hreach : ∀ l ∈ a.levels (opposite side), crosses side price l.price = true) (qty : Qty) :
    b.MarketIsIoc actor id side price qty := by
  obtain ⟨b₁, hb₁, h₁⟩ := h.addMarketAs hw actor id side qty
  obtain ⟨b₂, hb₂, h₂⟩ := h.addIocAs hw actor id side price qty
  have heq := Spec.Book.addMarketAs_eq hp hreach actor id qty
  rw [heq] at hb₁ h₁
  have hs : ∀ s, Spec.Shrinks ((a.addIocAs accepts actor id side price qty).2.levels s) (a.levels s) := fun s =>
    (Spec.Book.addIocAs_takes accepts a actor id side price qty).shrinks s
  exact ⟨_, b₁, b₂, hb₁, hb₂, .of_sim h₁ h₂ (hw.shrinks hs)⟩

end Sim

/-- In every reachable state, an immediate-or-cancel order does what a limit
order and its cancellation do, and a market order what an
immediate-or-cancel order at a price that reaches every level does. -/
theorem order_types_agree {ladder : L} (hv : Vacant ladder) {b₀ : OrderBook L M} (h₀ : new ladder = some b₀)
    (ops : List Op) (hfew : Runs.Along apply Few b₀ ops) :
    ∃ b, Runs.run apply b₀ ops = some b ∧
      (∀ actor id side price qty, Runs.Along apply Few b [.addLimitAs actor id side price qty] →
        b.IocIsLimitCancel actor id side price qty) ∧
      ∀ actor id side price qty, Ladder.validPrice b.ladder price = true →
        (∀ ls, b.walk (opposite side) = some ls → ∀ l ∈ ls, crosses side price l.price = true) →
        b.MarketIsIoc actor id side price qty := by
  obtain ⟨b₁, hb₁, hsim⟩ := new_sim (M := M) hv
  cases h₀.symm.trans hb₁
  obtain ⟨b, a, hb, ha, h, hbfew⟩ := run_sim Sim.within_of_few hsim ops hfew
  have hw := h.within_of_few hbfew
  refine ⟨b, hb, fun actor id side price qty hfew => Sim.iocIsLimitCancel h (spec_wf ha) hfew, ?_⟩
  intro actor id side price qty hp hreach
  have hp' : Ladder.validPrice ladder price = true := by
    obtain ⟨T, Q, h⟩ := h
    rw [← h.accepts]
    exact hp
  refine h.marketIsIoc hw actor id hp' (fun l hl => ?_) qty
  exact hreach _ (h.walk_eq hw _) l.view (List.mem_map_of_mem hl)

/-- A bid for more than the two asks in its reach. -/
theorem order_types_agree_sweep : ∃ b₀ b : OrderBook MapLadder OpenAddressIdMap, new {} = some b₀ ∧
    Runs.run apply b₀ [.setSelfTradePolicy .cancelBoth, .addLimitAs 7 1 .ask 5 4, .addLimitAs 8 2 .ask 6 4] = some b ∧
    b.IocIsLimitCancel 9 3 .bid 5 10 ∧ b.MarketIsIoc 8 3 .bid 6 10 := by
  obtain ⟨b₀, h₀, hsim⟩ := new_sim (M := OpenAddressIdMap) MapLadder.vacant
  let ops : List Op := [.setSelfTradePolicy .cancelBoth, .addLimitAs 7 1 .ask 5 4, .addLimitAs 8 2 .ask 6 4]
  have hfew : Runs.Along apply Few b₀ ops := along_few hsim _ (by decide)
  obtain ⟨b, hb, hioc, hmarket⟩ := order_types_agree MapLadder.vacant h₀ ops hfew
  obtain ⟨b', a, hb', ha, h, hbfew⟩ := run_sim Sim.within_of_few hsim ops hfew
  cases hb.symm.trans hb'
  have hbook : (Runs.run (specStep fun _ => true) {} ops).map (fun a =>
      (a.openOrders, (a.walk .ask).all fun l => crosses .bid 6 l.price)) = some (2, true) := by decide
  rw [show Runs.run (specStep fun _ => true) {} ops = some a from ha] at hbook
  obtain ⟨hopen, hreach⟩ := Prod.mk.inj (Option.some.inj hbook)
  refine ⟨b₀, b, h₀, hb, hioc 9 3 .bid 5 10 (along_few h _ ?_), hmarket 8 3 .bid 6 10 rfl ?_⟩
  · rw [hopen]
    decide
  · intro ls hls
    cases hls.symm.trans (h.walk_eq (h.within_of_few hbfew) .ask)
    exact List.all_eq_true.mp hreach

end OrderBook

end Pricetime
