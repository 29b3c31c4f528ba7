import Pricetime.Proof.Crossing
import Pricetime.Proof.Places
import Pricetime.Spec.Owners

/-!
# Self-trade prevention

`Met` is what matching does to the orders that an aggressor meets: whom it
trades with, who leaves, and what is left of it. A resting order carries its
owner through partial fills, cancellations and replacements (`Owned`), so that
no execution of a run is between two orders of one owner
(`self_trade_prevented`).
-/

namespace Pricetime

namespace Spec

theorem prevents_eq_true {policy : SelfTradePolicy} {actor participant : ParticipantId} :
    prevents policy actor participant = true ↔ actor ≠ 0 ∧ policy ≠ .none ∧ participant = actor := by
  simp [prevents, and_assoc]

theorem filled_cons_self (e : Execution) (execs : List Execution) :
    filled (e :: execs) e.restingId = e.qty.toNat + filled execs e.restingId := by
  rw [filled, List.filter_cons_of_pos (by simp), List.map_cons, List.sum_cons]
  rfl

theorem filled_cons_of_ne {e : Execution} {id : OrderId} (h : e.restingId ≠ id) (execs : List Execution) :
    filled (e :: execs) id = filled execs id := by
  rw [filled, List.filter_cons_of_neg (by simpa using h)]
  rfl

theorem filled_eq_zero {execs : List Execution} {id : OrderId} (h : ∀ e ∈ execs, e.restingId ≠ id) :
    filled execs id = 0 := by
  rw [filled, List.filter_eq_nil_iff.mpr fun e he => by simpa using h e he]
  rfl

namespace Book

/-- What an aggressor that meets the other side makes of it. -/
structure Met (a : Book) (aggressor : OrderId) (actor : ParticipantId) (qty : Qty)
    (r : Book × Qty × List Execution) : Prop where
  stp : r.1.stp = a.stp
  stems : ∀ x ∈ r.1.places, ∃ y ∈ a.places, y.order.id = x.order.id ∧ y.order.participant = x.order.participant
  execs : ∀ e ∈ r.2.2, e.aggressorId = aggressor ∧
    ∃ pl ∈ a.places, pl.order.id = e.restingId ∧ prevents a.stp actor pl.order.participant = false
  leaves : ∀ pl ∈ a.places, pl.order.id ∈ r.1.ids ∨ filled r.2.2 pl.order.id = pl.order.qty.toNat ∨
    prevents a.stp actor pl.order.participant = true ∧ (a.stp = .cancelResting ∨ a.stp = .cancelBoth)
  left : a.stp = .cancelResting → r.2.1.toNat + traded r.2.2 = qty.toNat

variable {a : Book} {aggressor : OrderId} {actor : ParticipantId} {qty : Qty} {pl : Place}

theorem stays {x : Place} (hx : x ∈ a.places) : x.order.id ∈ a.ids := mem_ids_iff.mpr ⟨x, hx, rfl⟩

/-- Who is left once an order has gone. -/
theorem stays_remove (hw : a.Wf) (hpl : pl ∈ a.places) {x : Place} (hx : x ∈ a.places)
    (hne : x.order.id ≠ pl.order.id) : x.order.id ∈ (a.remove pl).ids :=
  (ids_remove hw hpl).mpr ⟨stays hx, hne⟩

theorem matchOrder_met (hw : a.Wf) (aggressor : OrderId) (actor : ParticipantId) (side : Side) (limit : Option Price)
    (qty : Qty) : Met a aggressor actor qty (a.matchOrder aggressor actor side limit qty) := by
  refine matchOrder_induct (motive := fun a qty r => Met a aggressor actor qty r) ?_ ?_ ?_ ?_ ?_ ?_ hw qty
  case refine_1 =>
    intro a qty hw _
    exact ⟨rfl, fun x hx => ⟨x, hx, rfl, rfl⟩, nofun, fun x hx => .inl (stays hx), fun _ => rfl⟩
  case refine_2 =>
    intro a qty pl hw hf hstp _
    refine ⟨rfl, fun x hx => ⟨x, hx, rfl, rfl⟩, nofun, fun x hx => .inl (stays hx), fun e => ?_⟩
    cases hstp.symm.trans e
  case refine_3 =>
    intro a qty pl hw hf hstp hp
    refine ⟨rfl, fun x hx => ?_, nofun, fun x hx => ?_, fun e => ?_⟩
    · exact ⟨x, ((mem_places_remove hw hf.mem).mp hx).1, rfl, rfl⟩
    · by_cases hid : x.order.id = pl.order.id
      · rw [place_inj hw.nodup hx hf.mem hid]
        exact .inr (.inr ⟨hp, .inr hstp⟩)
      · exact .inl (stays_remove hw hf.mem hx hid)
    · cases hstp.symm.trans e
  case refine_4 =>
    intro a qty pl r hw hf hstp hp ih
    have hmem : ∀ {x}, x ∈ (({ a with counters := a.counters.prevent } : Book).cancelOpen pl).places ↔
      x ∈ a.places ∧ x.order.id ≠ pl.order.id := mem_places_remove (hw.setCounters _) hf.mem
    refine ⟨ih.stp, fun x hx => ?_, fun e he => ?_, fun x hx => ?_, ih.left⟩
    · obtain ⟨y, hy, h⟩ := ih.stems x hx
      exact ⟨y, (hmem.mp hy).1, h⟩
    · obtain ⟨hagg, y, hy, h⟩ := ih.execs e he
      exact ⟨hagg, y, (hmem.mp hy).1, h⟩
    · by_cases hid : x.order.id = pl.order.id
      · rw [place_inj hw.nodup hx hf.mem hid]
        exact .inr (.inr ⟨hp, .inl hstp⟩)
      · exact ih.leaves x (hmem.mpr ⟨hx, hid⟩)
  case refine_5 =>
    intro a qty pl hw hf hp hlt
    have hmem : ∀ {x}, x ∈ (({ a with counters := a.counters.trade qty } : Book).reduce pl qty).places ↔
      ∃ y ∈ a.places, y.reduce pl.order.id qty = x := mem_places_reduce hw hf.mem hlt
    have hkeeps : ∀ y : Place, (y.reduce pl.order.id qty).order.id = y.order.id ∧
        (y.reduce pl.order.id qty).order.participant = y.order.participant := fun y => by
      rw [Place.reduce]
      split <;> exact ⟨rfl, rfl⟩
    refine ⟨rfl, fun x hx => ?_, fun e he => ?_, fun x hx => ?_, fun _ => ?_⟩
    · obtain ⟨y, hy, rfl⟩ := hmem.mp hx
      exact ⟨y, hy, (hkeeps y).1.symm, (hkeeps y).2.symm⟩
    · rw [List.mem_singleton.mp he]
      exact ⟨rfl, pl, hf.mem, rfl, hp⟩
    · exact .inl (mem_ids_iff.mpr ⟨_, hmem.mpr ⟨x, hx, rfl⟩, (hkeeps x).1⟩)
    · simp [traded]
  case refine_6 =>
    intro a qty pl r hw hf hp hge ih
    have hmem : ∀ {x}, x ∈ (({ a with counters := a.counters.trade pl.order.qty } : Book).remove pl).places ↔
      x ∈ a.places ∧ x.order.id ≠ pl.order.id := mem_places_remove (hw.setCounters _) hf.mem
    have hother : ∀ e ∈ r.2.2, e.restingId ≠ pl.order.id := fun e he => by
      obtain ⟨-, y, hy, hid, -⟩ := ih.execs e he
      rw [← hid]
      exact (hmem.mp hy).2
    refine ⟨ih.stp, fun x hx => ?_, fun e he => ?_, fun x hx => ?_, fun hstp => ?_⟩
    · obtain ⟨y, hy, h⟩ := ih.stems x hx
      exact ⟨y, (hmem.mp hy).1, h⟩
    · rcases List.mem_cons.mp he with rfl | he
      · exact ⟨rfl, pl, hf.mem, rfl, hp⟩
      · obtain ⟨hagg, y, hy, h⟩ := ih.execs e he
        exact ⟨hagg, y, (hmem.mp hy).1, h⟩
    · by_cases hid : x.order.id = pl.order.id
      · rw [place_inj hw.nodup hx hf.mem hid]
        exact .inr (.inl (by rw [filled_cons_self, filled_eq_zero hother, Nat.add_zero]))
      · rw [filled_cons_of_ne (Ne.symm hid)]
        exact ih.leaves x (hmem.mpr ⟨hx, hid⟩)
    · have hleft := ih.left hstp
      have hle : pl.order.qty ≤ qty := UInt32.not_lt.mp hge
      rw [UInt32.toNat_sub_of_le _ _ hle] at hleft
      have := UInt32.le_iff_toNat_le.mp hle
      simp only [traded, List.map_cons, List.sum_cons] at hleft ⊢
      omega

/-! ## Owners -/

/-- A resting order carries its owner. -/
def Owned (w : Owners) (a : Book) : Prop := ∀ x ∈ a.places, w x.order.id = x.order.participant

namespace Owned

variable {w : Owners} {accepts : Price → Bool}

theorem remove (h : Owned w a) (hw : a.Wf) (hpl : pl ∈ a.places) : Owned w (a.remove pl) := fun x hx =>
  h x ((mem_places_remove hw hpl).mp hx).1

theorem reduce (h : Owned w a) (hw : a.Wf) (hpl : pl ∈ a.places) {take : Qty} (hlt : take < pl.order.qty) :
    Owned w (a.reduce pl take) := by
  intro x hx
  obtain ⟨y, hy, rfl⟩ := (mem_places_reduce hw hpl hlt).mp hx
  rw [Place.reduce]
  split <;> exact h y hy

/-- An order that has met the other side is known, whether it rests or not. -/
theorem met (h : Owned w a) {id : OrderId} (hid : id ∉ a.ids) {r : Book × Qty × List Execution}
    (hm : Met a aggressor actor qty r) : Owned (Function.update w id actor) r.1 := by
  intro x hx
  obtain ⟨y, hy, e, e'⟩ := hm.stems x hx
  have hne : x.order.id ≠ id := fun e₁ => hid (e₁ ▸ e ▸ stays hy)
  rw [Function.update_of_ne hne, ← e, ← e', h y hy]

theorem rest (h : Owned w a) (hw : a.Wf) {o : Resting} (ho : o.Ok) (hid : o.id ∉ a.ids) (hown : w o.id = o.participant)
    (s : Side) (p : Price) : Owned w (a.rest s p o) := by
  intro x hx
  rcases (mem_places_rest hw ho hid).mp hx with hx | rfl
  · exact h x hx
  · exact hown

theorem enters (h : Owned w a) (hw : a.Wf) {id : OrderId} {side : Side} {price : Price} {r : Reply × Book}
    (he : Enters a id actor side price qty r) :
    Owned (if r.1.result = .ok then Function.update w id actor else w) r.2 := by
  cases he with
  | rejected hr => rwa [if_neg hr]
  | entered h0 hq hid =>
    have hw' : (a.countAdded qty).Wf := hw.setCounters _
    have hm : Owned (Function.update w id actor) _ :=
      met (a := a.countAdded qty) h hid (matchOrder_met hw' id actor side (some price) qty)
    rw [if_pos rfl]
    dsimp only [Book.entered]
    split
    · rename_i hleft
      refine hm.rest (hw'.matchOrder ..) ⟨h0, UInt32.pos_iff_ne_zero.mp hleft⟩ (fun hid' => hid ?_)
        (Function.update_self ..) side price
      exact (ids_sublist (entered_shrinks a id actor side price qty)).subset hid'
    · exact hm

theorem takes (h : Owned w a) (hw : a.Wf) {id : OrderId} {side : Side} {limit : Option Price} {r : Reply × Book}
    (ht : Takes a id actor side limit qty r) :
    Owned (if r.1.result = .ok then Function.update w id actor else w) r.2 := by
  cases ht with
  | rejected hr => rwa [if_neg hr]
  | taken h0 hq hid =>
    rw [if_pos rfl]
    exact met (a := a.countAdded qty) h hid (matchOrder_met (hw.setCounters _) id actor side limit qty)

theorem consumes (h : Owned w a) (hw : a.Wf) {id : OrderId} {isExecution : Bool} {r : Reply × Book}
    (hc : Consumes a id qty isExecution r) : Owned w r.2 := by
  cases hc with
  | rejected hr => exact h
  | removed hf hq hle => exact Owned.remove (a := a.counted _ isExecution) h (hw.setCounters _) (find_some hf).1
  | reduced hf hq hlt => exact Owned.reduce (a := a.counted _ isExecution) h (hw.setCounters _) (find_some hf).1 hlt

theorem cancelOpen (h : Owned w a) (hw : a.Wf) (hpl : pl ∈ a.places) : Owned w (a.cancelOpen pl) :=
  Owned.remove (a := { a with counters := _ }) h (hw.setCounters _) hpl

/-- What is entered belongs to whom it was entered for. -/
theorem apply (h : Owned w a) (hw : a.Wf) (op : OrderBook.Op) :
    Owned (w.after op (a.apply accepts op).1) (a.apply accepts op).2 := by
  cases op with
  | setSelfTradePolicy p => exact h
  | reserveOrders n => exact h
  | addLimitAs actor id side price qty => exact h.enters hw (addLimitAs_enters accepts a actor id side price qty)
  | addIocAs actor id side price qty => exact h.takes hw (addIocAs_takes accepts a actor id side price qty)
  | addFokAs actor id side price qty => exact h.takes hw (addFokAs_takes accepts a actor id side price qty)
  | addMarketAs actor id side qty => exact h.takes hw (addMarketAs_takes a actor id side qty)
  | cancel id =>
    show Owned w (a.cancel id).2
    rw [Book.cancel]
    cases hf : a.find id with
    | none => exact h
    | some pl => exact h.cancelOpen hw (find_some hf).1
  | replace oldId newId newPrice newQty =>
    show Owned (if (a.replace accepts oldId newId newPrice newQty).1.result = .ok then
      Function.update w newId (w oldId) else w) (a.replace accepts oldId newId newPrice newQty).2
    rcases replace_cases accepts a oldId newId newPrice newQty with ⟨result, hres, e⟩ | ⟨pl, hf, he⟩
    · rw [e, if_neg hres]
      exact h
    · obtain ⟨hpl, rfl⟩ := find_some hf
      rw [h pl hpl]
      exact (h.cancelOpen hw hpl).enters (hw.cancelOpen pl) he
  | insertPassive id side price qty =>
    show Owned (if (a.insertPassive accepts id side price qty).1.result = .ok then Function.update w id 0 else w) _
    rw [Book.apply, Book.insertPassive]
    by_cases hv : a.validate accepts id price qty = .ok
    · obtain ⟨h0, hq, -, hid⟩ := validate_ok hv
      simp only [hv, ne_eq, not_true_eq_false, if_false, if_true]
      have hnew : Owned (Function.update w id 0) (a.countAdded qty) := fun x hx => by
        have hne : x.order.id ≠ id := fun e => hid (e ▸ stays hx)
        rw [Function.update_of_ne hne]
        exact h x hx
      exact hnew.rest (o := ⟨id, qty, 0⟩) (hw.setCounters _) ⟨h0, hq⟩ hid (Function.update_self ..) side price
    · simp only [hv, ne_eq, not_false_eq_true, if_true, if_false]
      exact h
  | executeResting id qty => exact h.consumes hw (consume_consumes a id qty true)
  | reduceResting id qty => exact h.consumes hw (consume_consumes a id qty false)

end Owned

/-! ## The policy -/

theorem Enters.stp {id : OrderId} {side : Side} {price : Price} {r : Reply × Book}
    (h : Enters a id actor side price qty r) : r.2.stp = a.stp := by
  cases h with
  | rejected _ => rfl
  | entered _ _ _ =>
    dsimp only [Book.entered]
    split <;> rfl

theorem Takes.stp {id : OrderId} {side : Side} {limit : Option Price} {r : Reply × Book}
    (h : Takes a id actor side limit qty r) : r.2.stp = a.stp := by
  cases h <;> rfl

theorem Consumes.stp {id : OrderId} {isExecution : Bool} {r : Reply × Book} (h : Consumes a id qty isExecution r) :
    r.2.stp = a.stp := by
  cases h <;> rfl

/-- Only `set_self_trade_policy` sets the policy. -/
theorem apply_stp (accepts : Price → Bool) (a : Book) {op : OrderBook.Op} (hop : op.isPolicy = false) :
    (a.apply accepts op).2.stp = a.stp := by
  cases op with
  | setSelfTradePolicy p => cases hop
  | reserveOrders n => rfl
  | addLimitAs actor id side price qty => exact (addLimitAs_enters accepts a actor id side price qty).stp
  | addIocAs actor id side price qty => exact (addIocAs_takes accepts a actor id side price qty).stp
  | addFokAs actor id side price qty => exact (addFokAs_takes accepts a actor id side price qty).stp
  | addMarketAs actor id side qty => exact (addMarketAs_takes a actor id side qty).stp
  | cancel id =>
    rw [Book.apply, Book.cancel]
    split <;> rfl
  | replace oldId newId newPrice newQty =>
    rw [Book.apply]
    rcases replace_cases accepts a oldId newId newPrice newQty with ⟨result, -, e⟩ | ⟨pl, -, he⟩
    · rw [e]
    · exact he.stp
  | insertPassive id side price qty =>
    rw [Book.apply, Book.insertPassive]
    split <;> rfl
  | executeResting id qty => exact (consume_consumes a id qty true).stp
  | reduceResting id qty => exact (consume_consumes a id qty false).stp

/-! ## What prevention does -/

/-- The orders that met an aggressor of `actor`, and what became of them. -/
structure Deals (w : Owners) (a : Book) (id : OrderId) (actor : ParticipantId) (es : List Execution)
    (ids' : List OrderId) : Prop where
  execs : ∀ e ∈ es, e.aggressorId = id ∧ e.restingId ∈ a.ids ∧ (actor ≠ 0 → w e.restingId ≠ actor)
  leaves : ∀ pl ∈ a.places, pl.order.id ∈ ids' ∨ filled es pl.order.id = pl.order.qty.toNat ∨
    w pl.order.id = actor ∧ actor ≠ 0 ∧ (a.stp = .cancelResting ∨ a.stp = .cancelBoth)

section Deals

variable {w : Owners}

theorem Deals.rejected (w : Owners) (a : Book) (id : OrderId) (actor : ParticipantId) : Deals w a id actor [] a.ids :=
  ⟨nofun, fun _ hx => .inl (stays hx)⟩

theorem Deals.mono {id : OrderId} {execs : List Execution} {ids' ids'' : List OrderId}
    (h : Deals w a id actor execs ids') (hs : ids' ⊆ ids'') : Deals w a id actor execs ids'' :=
  ⟨h.execs, fun pl hpl => (h.leaves pl hpl).imp_left fun hm => hs hm⟩

theorem Met.deals (ho : Owned w a) (hp : a.stp ≠ .none) {r : Book × Qty × List Execution}
    (hm : Met a aggressor actor qty r) : Deals w a aggressor actor r.2.2 r.1.ids where
  execs e he := by
    obtain ⟨hagg, pl, hpl, hid, hno⟩ := hm.execs e he
    refine ⟨hagg, hid ▸ stays hpl, fun h0 hown => ?_⟩
    rw [Bool.eq_false_iff, ne_eq, prevents_eq_true] at hno
    exact hno ⟨h0, hp, by rw [← ho pl hpl, hid, hown]⟩
  leaves pl hpl := by
    refine (hm.leaves pl hpl).imp_right (Or.imp_right fun ⟨hpr, hstp⟩ => ?_)
    obtain ⟨h0, -, hown⟩ := prevents_eq_true.mp hpr
    exact ⟨(ho pl hpl).trans hown, h0, hstp⟩

variable {id : OrderId} {side : Side} {r : Reply × Book}

theorem Enters.deals {price : Price} (hw : a.Wf) (ho : Owned w a) (hp : a.stp ≠ .none)
    (h : Enters a id actor side price qty r) : Deals w a id actor r.1.execs r.2.ids := by
  cases h with
  | rejected _ => exact .rejected ..
  | entered h0 hq hid =>
    have hd := Met.deals (a := a.countAdded qty) ho hp
      (matchOrder_met (hw.setCounters _) id actor side (some price) qty)
    refine Deals.mono (a := a) ⟨hd.execs, hd.leaves⟩ fun x hx => ?_
    rw [Book.entered]
    dsimp only
    split
    · exact (rest_ids ..).mem_iff.mpr (List.mem_cons_of_mem _ hx)
    · exact hx

theorem Takes.deals {limit : Option Price} (hw : a.Wf) (ho : Owned w a) (hp : a.stp ≠ .none)
    (h : Takes a id actor side limit qty r) : Deals w a id actor r.1.execs r.2.ids := by
  cases h with
  | rejected _ => exact .rejected ..
  | taken h0 hq hid =>
    have hd := Met.deals (a := a.countAdded qty) ho hp (matchOrder_met (hw.setCounters _) id actor side limit qty)
    exact ⟨hd.execs, hd.leaves⟩

/-- What is left of a limit order rests. -/
theorem Enters.rests {price : Price} (hw : a.Wf) (hp : a.stp = .cancelResting)
    (h : Enters a id actor side price qty r) (hok : r.1.result = .ok) (hlt : traded r.1.execs < qty.toNat) :
    ∃ pl ∈ r.2.places, pl.order.id = id ∧ pl.order.qty.toNat = qty.toNat - traded r.1.execs := by
  cases h with
  | rejected hr => exact absurd hok hr
  | entered h0 hq hid =>
    have hw' : (a.countAdded qty).Wf := hw.setCounters _
    have hm := matchOrder_met hw' id actor side (some price) qty
    have hleft := hm.left hp
    dsimp only at hlt ⊢
    have hpos : ((a.countAdded qty).matchOrder id actor side (some price) qty).2.1 > 0 :=
      UInt32.lt_iff_toNat_lt.mpr (by rw [UInt32.toNat_zero]; omega)
    rw [Book.entered]
    simp only [hpos, if_true]
    refine ⟨_, (mem_places_rest (hw'.matchOrder ..) ⟨h0, UInt32.pos_iff_ne_zero.mp hpos⟩ (fun hid' => hid ?_)).mpr
      (.inr rfl), rfl, ?_⟩
    · exact (ids_sublist (entered_shrinks a id actor side price qty)).subset hid'
    · dsimp only
      omega

/-- An order that never rests stops when there is nothing in reach. -/
theorem Takes.exhausts {limit : Option Price} (hw : a.Wf) (hp : a.stp = .cancelResting)
    (h : Takes a id actor side limit qty r) (hok : r.1.result = .ok) (hlt : traded r.1.execs < qty.toNat) :
    ∀ l ∈ r.2.levels (opposite side), reaches side limit l.price = false := by
  cases h with
  | rejected hr => exact absurd hok hr
  | taken h0 hq hid =>
    have hleft := (matchOrder_met (a := a.countAdded qty) (hw.setCounters _) id actor side limit qty).left hp
    dsimp only at hlt
    have hne : ((a.countAdded qty).matchOrder id actor side limit qty).2.1 ≠ 0 := fun e => by
      rw [e, UInt32.toNat_zero] at hleft
      omega
    show ∀ l ∈ ((a.countAdded qty).matchOrder id actor side limit qty).1.levels (opposite side), _
    rw [Book.matchOrder, setLevels_self]
    exact matchLevels_exhausts _ _ _ (hw.side _).sorted hne

end Deals

end Book

end Spec

namespace OrderBook

variable {L M : Type} [Ladder L] [LawfulLadder L] [IdMap M] [LawfulIdMap M]

/-- Policy `p` at an operation: whom its order trades with, who leaves the book
unfilled, and what becomes of what is left of it. -/
structure Prevented (p : SelfTradePolicy) (w : Spec.Owners) (b : OrderBook L M) (op : Op) (reply : Reply)
    (b' : OrderBook L M) : Prop where
  execs : ∀ e ∈ reply.execs, op.entered = some e.aggressorId ∧ b.Rests e.restingId ∧
    (w.actor op ≠ 0 → w e.restingId ≠ w.actor op)
  leaves : op.isEntry = true → ∀ id qty, b.Holds id qty → op.replaced ≠ some id →
    b'.Rests id ∨ Spec.filled reply.execs id = qty.toNat ∨
      w id = w.actor op ∧ w.actor op ≠ 0 ∧ (p = .cancelResting ∨ p = .cancelBoth)
  rests : p = .cancelResting → reply.result = .ok → ∀ id qty, op.limitOrder = some (id, qty) →
    Spec.traded reply.execs < qty.toNat →
    ∃ left, b'.Holds id left ∧ left.toNat = qty.toNat - Spec.traded reply.execs
  exhausts : p = .cancelResting → reply.result = .ok → ∀ side limit qty, op.taker = some (side, limit, qty) →
    Spec.traded reply.execs < qty.toNat →
    ∀ l, b'.best (opposite side) = some l → reaches side limit l.price = false

section Sim

variable {accepts : Price → Bool} {b b' : OrderBook L M} {a a' a₀ : Spec.Book} {w : Spec.Owners} {op : Op}
  {reply : Reply} {p : SelfTradePolicy}

omit [LawfulLadder L] [LawfulIdMap M] in
/-- An operation that enters no order that may trade. -/
theorem Prevented.quiet (hop : op.isEntry = false) (hexecs : reply.execs = []) : Prevented p w b op reply b' := by
  obtain ⟨hlimit, htaker⟩ : op.limitOrder = none ∧ op.taker = none := by
    rw [Op.isEntry, Bool.or_eq_false_iff] at hop
    exact ⟨Option.not_isSome_iff_eq_none.mp (by simp [hop.1]), Option.not_isSome_iff_eq_none.mp (by simp [hop.2])⟩
  refine ⟨fun e he => ?_, fun h => ?_, fun _ _ _ _ h => ?_, fun _ _ _ _ _ h => ?_⟩
  · rw [hexecs] at he
    cases he
  · rw [hop] at h
    cases h
  · rw [hlimit] at h
    cases h
  · rw [htaker] at h
    cases h

/-- The order met a book `a₀`, which is `a` but for the order it replaces. -/
theorem Prevented.of_deals (h : Sim accepts b a) (h' : Sim accepts b' a') {id : OrderId}
    (hentered : op.entered = some id) (hids : ∀ x ∈ a₀.ids, x ∈ a.ids)
    (hplaces : ∀ x ∈ a.places, op.replaced ≠ some x.order.id → x ∈ a₀.places) (hp : a₀.stp = p)
    (hd : Spec.Book.Deals w a₀ id (w.actor op) reply.execs a'.ids)
    (hrests : p = .cancelResting → reply.result = .ok → ∀ id qty, op.limitOrder = some (id, qty) →
      Spec.traded reply.execs < qty.toNat →
      ∃ pl ∈ a'.places, pl.order.id = id ∧ pl.order.qty.toNat = qty.toNat - Spec.traded reply.execs)
    (hexhausts : p = .cancelResting → reply.result = .ok → ∀ side limit qty, op.taker = some (side, limit, qty) →
      Spec.traded reply.execs < qty.toNat →
      ∀ l ∈ a'.levels (opposite side), reaches side limit l.price = false) (hw' : a'.Wf) :
    Prevented p w b op reply b' where
  execs e he := by
    obtain ⟨rfl, hid, hown⟩ := hd.execs e he
    exact ⟨hentered, h.rests_iff.mpr (hids _ hid), hown⟩
  leaves _ id' qty hholds hne := by
    obtain ⟨pl, hf, rfl⟩ := h.holds_iff.mp hholds
    obtain ⟨hpl, rfl⟩ := Spec.Book.find_some hf
    have hl := hd.leaves pl (hplaces pl hpl hne)
    rwa [hp, ← h'.rests_iff] at hl
  rests hpol hok id' qty hlimit hlt := by
    obtain ⟨pl, hpl, hid, hqty⟩ := hrests hpol hok id' qty hlimit hlt
    exact ⟨pl.order.qty, h'.holds_iff.mpr ⟨pl, (Spec.Book.find_eq_some_iff hw'.nodup).mpr ⟨hpl, hid⟩, rfl⟩, hqty⟩
  exhausts hpol hok side limit qty htaker hlt l hl := by
    have he := h'.best_eq (opposite side)
    rw [hl, Option.map_some] at he
    obtain ⟨l', hl', e⟩ := Option.map_eq_some_iff.mp he.symm
    have hprice : l'.price = l.price := congrArg DepthLevel.price e
    rw [← hprice]
    exact hexhausts hpol hok side limit qty htaker hlt l' (List.mem_of_mem_head? hl')

theorem Sim.prevented (h : Sim accepts b a) (hw : a.Wf) (ho : Spec.Book.Owned w a) (hp : a.stp = p) (hne : p ≠ .none)
    (h' : Sim accepts b' (a.apply accepts op).2) : Prevented p w b op (a.apply accepts op).1 b' := by
  have hstp : a.stp ≠ .none := hp ▸ hne
  have hw' := hw.apply accepts op
  -- an order that never rests
  have takes : ∀ {actor id side limit qty}, op.entered = some id → w.actor op = actor → op.limitOrder = none →
      op.taker = some (side, limit, qty) → Spec.Book.Takes a id actor side limit qty (a.apply accepts op) →
      Prevented p w b op (a.apply accepts op).1 b' := by
    rintro actor id side limit qty hentered rfl hlimit htaker ht
    refine .of_deals h h' hentered (fun _ hx => hx) (fun _ hx _ => hx) hp (ht.deals hw ho hstp) ?_ ?_ hw'
    · rw [hlimit]
      exact fun _ _ _ _ => nofun
    · intro hpol hok side' limit' qty' e hlt
      obtain ⟨rfl, rfl, rfl⟩ : side = side' ∧ limit = limit' ∧ qty = qty' := by
        simpa using htaker.symm.trans e
      exact ht.exhausts hw (hp.trans hpol) hok hlt
  -- a limit order that meets `a₀`
  have enters : ∀ {a₀ actor id side price qty}, op.entered = some id → w.actor op = actor →
      op.limitOrder = some (id, qty) → op.taker = none → a₀.Wf → Spec.Book.Owned w a₀ → a₀.stp = p →
      (∀ x ∈ a₀.ids, x ∈ a.ids) → (∀ x ∈ a.places, op.replaced ≠ some x.order.id → x ∈ a₀.places) →
      Spec.Book.Enters a₀ id actor side price qty (a.apply accepts op) →
      Prevented p w b op (a.apply accepts op).1 b' := by
    rintro a₀ actor id side price qty hentered rfl hlimit htaker hw₀ ho₀ hp₀ hids hplaces he
    refine .of_deals h h' hentered hids hplaces hp₀ (he.deals hw₀ ho₀ (hp₀ ▸ hne)) ?_ ?_ hw'
    · intro hpol hok id' qty' e hlt
      obtain ⟨rfl, rfl⟩ : id = id' ∧ qty = qty' := by simpa using hlimit.symm.trans e
      exact he.rests hw₀ (hp₀.trans hpol) hok hlt
    · rw [htaker]
      exact fun _ _ _ _ _ => nofun
  cases op with
  | setSelfTradePolicy p => exact .quiet rfl rfl
  | reserveOrders n => exact .quiet rfl rfl
  | addLimitAs actor id side price qty =>
    exact enters rfl rfl rfl rfl hw ho hp (fun _ hx => hx) (fun _ hx _ => hx) (Spec.Book.addLimitAs_enters ..)
  | addIocAs actor id side price qty => exact takes rfl rfl rfl rfl (Spec.Book.addIocAs_takes ..)
  | addFokAs actor id side price qty => exact takes rfl rfl rfl rfl (Spec.Book.addFokAs_takes ..)
  | addMarketAs actor id side qty => exact takes rfl rfl rfl rfl (Spec.Book.addMarketAs_takes ..)
  | cancel id =>
    refine .quiet rfl ?_
    rw [Spec.Book.apply, Spec.Book.cancel]
    split <;> rfl
  | replace oldId newId newPrice newQty =>
    rcases Spec.Book.replace_cases accepts a oldId newId newPrice newQty with ⟨result, hres, e⟩ | ⟨pl, hf, he⟩
    · have he : Spec.Book.Enters a newId (w oldId) .bid newPrice newQty
          (a.apply accepts (.replace oldId newId newPrice newQty)) := by
        rw [Spec.Book.apply, e]
        exact .rejected hres
      exact enters rfl rfl rfl rfl hw ho hp (fun _ hx => hx) (fun _ hx _ => hx) he
    · obtain ⟨hpl, rfl⟩ := Spec.Book.find_some hf
      have hmem : ∀ {x}, x ∈ (a.cancelOpen pl).places ↔ x ∈ a.places ∧ x.order.id ≠ pl.order.id :=
        Spec.Book.mem_places_remove (hw.setCounters _) hpl
      exact enters rfl (ho pl hpl) rfl rfl (hw.cancelOpen pl) (ho.cancelOpen hw hpl) hp
        (Spec.Book.ids_sublist (Spec.Book.cancelOpen_shrinks a pl)).subset
        (fun x hx hne => hmem.mpr ⟨hx, fun e => hne (congrArg some e.symm)⟩) he
  | insertPassive id side price qty =>
    refine .quiet rfl ?_
    rw [Spec.Book.apply, Spec.Book.insertPassive]
    split <;> rfl
  | executeResting id qty => exact .quiet rfl (Spec.Book.consume_consumes a id qty true).execs
  | reduceResting id qty => exact .quiet rfl (Spec.Book.consume_consumes a id qty false).execs

end Sim

/-- A book together with the owners of its orders. -/
def ownedStep (s : OrderBook L M × Spec.Owners) (op : Op) : Option (Reply × (OrderBook L M × Spec.Owners)) := do
  let (reply, b) ← s.1.apply op
  some (reply, b, s.2.after op reply)

/-- The invariant of a run under policy `p`. -/
structure Guarded (accepts : Price → Bool) (p : SelfTradePolicy) (s : OrderBook L M × Spec.Owners) (a : Spec.Book) :
    Prop where
  sim : Sim accepts s.1 a
  wf : a.Wf
  owned : Spec.Book.Owned s.2 a
  stp : a.stp = p

theorem Guarded.step {accepts : Price → Bool} {p : SelfTradePolicy} {s : OrderBook L M × Spec.Owners} {a : Spec.Book}
    (h : Guarded accepts p s a) (hb : Few s.1) {op : Op} (hop : op.isPolicy = false) :
    ∃ reply s', ownedStep s op = some (reply, s') ∧ Guarded accepts p s' (a.apply accepts op).2 := by
  obtain ⟨b', hb', h'⟩ := h.sim.apply (h.sim.within_of_few hb) op
  refine ⟨(a.apply accepts op).1, (b', s.2.after op (a.apply accepts op).1), ?_,
    ⟨h', h.wf.apply accepts op, h.owned.apply h.wf op, ?_⟩⟩
  · rw [ownedStep, hb']
    rfl
  · rw [← h.stp]
    exact Spec.Book.apply_stp accepts a hop

omit [LawfulLadder L] [LawfulIdMap M] in
theorem along_owned : ∀ {ops : List Op} {s : OrderBook L M × Spec.Owners}, Runs.Along apply Few s.1 ops →
    Runs.Along ownedStep (fun s => Few s.1) s ops
  | [], _, h => h
  | op :: ops, s, h => by
    refine ⟨h.1, fun reply s' hs => ?_⟩
    obtain ⟨⟨reply', b'⟩, hb', e⟩ := Option.bind_eq_some_iff.mp hs
    cases e
    exact along_owned (h.2 _ _ hb')

/-- Once the policy has been set, and is not changed, every operation of a run
is as the policy wants it. -/
theorem self_trade_prevented {ladder : L} (hv : Vacant ladder) {b₀ : OrderBook L M} (h₀ : new ladder = some b₀)
    {p : SelfTradePolicy} (hp : p ≠ .none) (ops : List Op) (hops : ∀ op ∈ ops, op.isPolicy = false)
    (hfew : Runs.Along apply Few (b₀.setSelfTradePolicy p) ops) :
    ∃ b w, Runs.run ownedStep (b₀.setSelfTradePolicy p, fun _ => 0) ops = some (b, w) ∧
      ∀ op, op.isPolicy = false → ∃ reply b', b.apply op = some (reply, b') ∧ Prevented p w b op reply b' := by
  obtain ⟨b, hb, hsim⟩ := new_sim (M := M) hv
  cases h₀.symm.trans hb
  have hstart : Guarded (Ladder.validPrice ladder) p (b₀.setSelfTradePolicy p, fun _ => 0) { stp := p } :=
    ⟨hsim.setStp p, ⟨Spec.Book.wf_empty.side, Spec.Book.wf_empty.nodup⟩, nofun, rfl⟩
  obtain ⟨⟨b, w⟩, hb, ⟨a, h⟩, hfewb⟩ := Runs.run_inv
    (I := fun s => ∃ a, Guarded (Ladder.validPrice ladder) p s a) (A := fun op => op.isPolicy = false)
    (fun s op ⟨a, h⟩ hb hop => by
      obtain ⟨reply, s', hs, h'⟩ := h.step hb hop
      exact ⟨reply, s', hs, _, h'⟩)
    ops ⟨_, hstart⟩ hops (along_owned hfew)
  refine ⟨b, w, hb, fun op hop => ?_⟩
  obtain ⟨b', hb', h'⟩ := h.sim.apply (h.sim.within_of_few hfewb) op
  exact ⟨_, b', hb', h.sim.prevented h.wf h.owned h.stp hp h'⟩

/-- A replacement that meets its owner's order, which gives way, and then
trades with another. -/
theorem self_trade_prevented_replace : ∃ (b₀ b b' : OrderBook MapLadder OpenAddressIdMap) (w : Spec.Owners)
    (reply : Reply), new {} = some b₀ ∧
    Runs.run ownedStep (b₀.setSelfTradePolicy .cancelResting, fun _ => 0) [.addLimitAs 7 1 .ask 5 10,
      .addLimitAs 8 2 .ask 5 4, .addLimitAs 7 3 .bid 4 9] = some (b, w) ∧
    b.apply (.replace 3 4 5 9) = some (reply, b') ∧ Prevented .cancelResting w b (.replace 3 4 5 9) reply b' := by
  obtain ⟨b₀, h₀, hsim⟩ := new_sim (M := OpenAddressIdMap) MapLadder.vacant
  obtain ⟨b, w, hb, h⟩ := self_trade_prevented MapLadder.vacant h₀ (p := .cancelResting) (by decide)
    [.addLimitAs 7 1 .ask 5 10, .addLimitAs 8 2 .ask 5 4, .addLimitAs 7 3 .bid 4 9] (by decide)
    (along_few (hsim.setStp _) _ (by decide))
  obtain ⟨reply, b', hb', hp⟩ := h (.replace 3 4 5 9) rfl
  exact ⟨b₀, b, b', w, reply, h₀, hb, hb', hp⟩

end OrderBook

end Pricetime
