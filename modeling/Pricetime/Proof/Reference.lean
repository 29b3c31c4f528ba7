import Pricetime.Impl.ReferenceBook
import Pricetime.Proof.FlatBook
import Pricetime.Proof.MatchSteps
import Pricetime.Proof.Observe

/-!
# The reference book against the abstract book

`ReferenceBook.Holds live a`: the live orders of a reference book, in the
order of their arrival, are the flat list of abstract book `a`, and their
sequence numbers increase. Price-time priority over the list is then the order
of the abstract book.

Main results:

* `bestFrom_spec`: the scan finds an order that no other one precedes.
* `Holds.best_eq`: that is the oldest order of the best level of the other
  side, if the aggressor reaches it.
* `Holds.removeAt`, `Holds.reduceAt`, `Holds.rest`: changes of the list are
  changes of the book.
-/

namespace Pricetime

open Spec (Resting PriceLevel Place queueIn restingAt Flat Sorted)

def RefOrder.resting (o : RefOrder) : Resting := ⟨o.id, o.qty, o.participant⟩

def RefOrder.place (o : RefOrder) : Place := ⟨o.side, o.price, o.resting⟩

namespace ReferenceBook

/-! ## Priority -/

section Priority

variable {side : Side} {a b c : RefOrder}

theorem before_eq (side : Side) (a b : RefOrder) :
    before side a b = if a.price = b.price then decide (a.seq < b.seq) else (opposite side).better a.price b.price := by
  unfold before
  by_cases h : a.price = b.price
  · rw [if_neg (not_not_intro h), if_pos h]
  · rw [if_pos h, if_neg h]
    cases side <;> rfl

theorem before_irrefl (side : Side) (a : RefOrder) : before side a a = false := by
  rw [before_eq, if_pos rfl]
  exact decide_eq_false (UInt64.lt_irrefl _)

theorem before_trans (h : before side a b = true) (h' : before side b c = true) : before side a c = true := by
  rw [before_eq] at *
  split at h <;> split at h'
  · rename_i e e'
    rw [if_pos (e.trans e')]
    exact decide_eq_true (UInt64.lt_trans (of_decide_eq_true h) (of_decide_eq_true h'))
  · rename_i e e'
    rw [e, if_neg e']
    exact h'
  · rename_i e e'
    rw [← e', if_neg e]
    exact h
  · have hb := Side.better_trans h h'
    rw [if_neg fun e => ?_]
    · exact hb
    · rw [e, Side.better_irrefl] at hb
      cases hb

theorem before_asymm (h : before side a b = true) : before side b a = false :=
  Bool.eq_false_iff.mpr fun h' => by
    have := before_trans h h'
    rw [before_irrefl] at this
    cases this

/-- Only orders that arrived at once are in no order. -/
theorem before_total (h : before side a b = false) (h' : before side b a = false) :
    a.price = b.price ∧ a.seq = b.seq := by
  rw [before_eq] at *
  by_cases e : a.price = b.price
  · rw [if_pos e] at h
    rw [if_pos e.symm] at h'
    refine ⟨e, ?_⟩
    exact UInt64.le_antisymm (UInt64.not_lt.mp (of_decide_eq_false h')) (UInt64.not_lt.mp (of_decide_eq_false h))
  · rw [if_neg e] at h
    rw [if_neg fun e' => e e'.symm] at h'
    rw [Side.better_total h e] at h'
    cases h'

/-- The test of `best_counterparty`. -/
theorem improves_eq (side : Side) (a b : RefOrder) :
    ((match side with
      | .bid => decide (a.price < b.price)
      | .ask => decide (a.price > b.price)) || (decide (a.price = b.price) && decide (a.seq < b.seq))) =
    before side a b := by
  unfold before
  by_cases h : a.price = b.price
  · cases side <;> simp [h]
  · cases side <;> simp [h]

end Priority

/-! ## The best counterparty -/

/-- What the scan has found in the orders `xs`. -/
def Best (side : Side) (price : Option Price) (xs : List RefOrder) : Option (Nat × RefOrder) → Prop
  | none => ∀ x ∈ xs, tradable side price x = false
  | some (j, b) => xs[j]? = some b ∧ tradable side price b = true ∧
    ∀ x ∈ xs, tradable side price x = true → before side x b = false

section BestFrom

variable {side : Side} {price : Option Price} {xs : List RefOrder} {o : RefOrder}

/-- One more order, which the scan passes over. -/
theorem Best.skip {best : Option (Nat × RefOrder)} (h : Best side price xs best)
    (ho : tradable side price o = true → ∃ j b, best = some (j, b) ∧ before side o b = false) :
    Best side price (xs ++ [o]) best := by
  match best, h, ho with
  | none, h, ho =>
    intro x hx
    rcases List.mem_append.mp hx with hx | hx
    · exact h x hx
    · rw [List.mem_singleton.mp hx]
      exact Bool.eq_false_iff.mpr fun e => by
        obtain ⟨j, b, e, -⟩ := ho e
        cases e
  | some (j, b), ⟨hj, hb, h⟩, ho =>
    obtain ⟨hlt, -⟩ := List.getElem?_eq_some_iff.mp hj
    refine ⟨by rw [List.getElem?_append_left hlt, hj], hb, fun x hx hx' => ?_⟩
    rcases List.mem_append.mp hx with hx | hx
    · exact h x hx hx'
    · rw [List.mem_singleton.mp hx] at hx' ⊢
      obtain ⟨j', b', e, hb'⟩ := ho hx'
      cases e
      exact hb'

/-- One more order, which the scan takes. -/
theorem Best.take {best : Option (Nat × RefOrder)} (h : Best side price xs best)
    (ho : tradable side price o = true) (hbest : ∀ j b, best = some (j, b) → before side o b = true) :
    Best side price (xs ++ [o]) (some (xs.length, o)) := by
  refine ⟨List.getElem?_concat_length, ho, fun x hx hx' => ?_⟩
  rcases List.mem_append.mp hx with hx | hx
  · match best, h, hbest with
    | none, h, _ =>
      rw [h x hx] at hx'
      cases hx'
    | some (j, b), ⟨_, _, h⟩, hbest =>
      refine Bool.eq_false_iff.mpr fun e => ?_
      have := before_trans e (hbest j b rfl)
      rw [h x hx hx'] at this
      cases this
  · rw [List.mem_singleton.mp hx, before_irrefl]

/-- A tradable order once another was found. -/
theorem bestFrom_some (ht : tradable side price o = true) (i j : Nat) (b : RefOrder) (os : List RefOrder) :
    bestFrom side price i (o :: os) (some (j, b)) =
      bestFrom side price (i + 1) os (some (if before side o b then (i, o) else (j, b))) := by
  rw [← improves_eq, bestFrom.eq_def, apply_ite some, apply_ite (bestFrom side price (i + 1) os)]
  have htaken : ¬ (!tradable side price o) = true := by
    rw [ht]
    exact Bool.false_ne_true
  exact (if_neg htaken).trans rfl

theorem bestFrom_spec : ∀ (os : List RefOrder) {xs : List RefOrder} {best : Option (Nat × RefOrder)},
    Best side price xs best → Best side price (xs ++ os) (bestFrom side price xs.length os best)
  | [], xs, best, h => by
    rw [List.append_nil]
    exact h
  | o :: os, xs, best, h => by
    have next : ∀ {best'}, Best side price (xs ++ [o]) best' →
        Best side price (xs ++ o :: os) (bestFrom side price (xs.length + 1) os best') := fun h' => by
      have := bestFrom_spec os h'
      rwa [List.append_assoc, List.singleton_append, List.length_append, List.length_singleton] at this
    cases ht : tradable side price o with
    | false =>
      rw [bestFrom.eq_def]
      simp only [ht, Bool.not_false, if_true]
      exact next (h.skip fun e => by rw [ht] at e; cases e)
    | true =>
      match best, h with
      | none, h =>
        rw [bestFrom.eq_def]
        simp only [ht, Bool.not_true, Bool.false_eq_true, if_false]
        exact next (h.take ht nofun)
      | some (j, b), h =>
        rw [bestFrom_some ht]
        cases hbf : before side o b with
        | true =>
          refine next (h.take ht fun j' b' e => ?_)
          cases e
          exact hbf
        | false => exact next (h.skip fun _ => ⟨j, b, rfl, hbf⟩)

theorem bestCounterparty_spec (b : ReferenceBook) (side : Side) (price : Option Price) :
    Best side price b.live (b.bestCounterparty side price) :=
  @bestFrom_spec side price b.live [] none nofun

end BestFrom

/-! ## The live orders of a book -/

/-- The orders of a list, in the order of their arrival, are those of a book. -/
structure Holds (live : List RefOrder) (a : Spec.Book) : Prop where
  flat : Flat (live.map RefOrder.place) a
  wf : a.Wf
  seqs : (live.map RefOrder.seq).Pairwise (· < ·)

theorem restingAt_live (live : List RefOrder) (s : Side) (p : Price) :
    restingAt (live.map RefOrder.place) s p =
      (live.filter fun o => o.side = s ∧ o.price = p).map RefOrder.resting := by
  rw [restingAt, List.filter_map, List.map_map]
  rfl

namespace Holds

variable {live : List RefOrder} {a : Spec.Book}

theorem empty : Holds [] {} := ⟨Flat.empty, Spec.Book.wf_empty, List.Pairwise.nil⟩

theorem ids (h : Holds live a) : (live.map RefOrder.id).Nodup := by
  have := h.flat.nodup
  rwa [List.map_map] at this

theorem seq_inj (h : Holds live a) {x y : RefOrder} (hx : x ∈ live) (hy : y ∈ live) (e : x.seq = y.seq) :
    x = y := by
  have hnd : (live.map RefOrder.seq).Nodup := h.seqs.imp fun hlt e => by
    rw [e] at hlt
    exact UInt64.lt_irrefl _ hlt
  exact List.inj_on_of_nodup_map hnd hx hy e

theorem nodup (h : Holds live a) : live.Nodup := List.Nodup.of_map _ h.ids

/-- Every live order rests at a level. -/
theorem level (h : Holds live a) {x : RefOrder} (hx : x ∈ live) :
    ∃ l ∈ a.levels x.side, l.price = x.price ∧ x.resting ∈ l.orders :=
  Spec.Book.mem_places.mp ((h.flat.mem h.wf).mp (List.mem_map_of_mem hx))

theorem find (h : Holds live a) (id : OrderId) :
    a.find id = (live.find? fun o => o.id = id).map RefOrder.place := by
  rw [h.flat.find h.wf, List.find?_map]
  rfl

theorem openOrders (h : Holds live a) : a.openOrders = live.length := by
  rw [h.flat.openOrders h.wf, List.length_map]

/-- The oldest order of the best level. -/
theorem front (h : Holds live a) {s : Side} {p : Price} {o : Resting} {os : List Resting} {ls : List PriceLevel}
    (hl : a.levels s = ⟨p, o :: os⟩ :: ls) :
    ∃ xs x ys, live = xs ++ x :: ys ∧ x.place = ⟨s, p, o⟩ ∧ ∀ y ∈ xs, ¬ (y.side = s ∧ y.price = p) := by
  have hq := h.flat.queue s p
  rw [hl, Spec.queueIn_cons, if_pos rfl, restingAt_live] at hq
  obtain ⟨x, rest, hf, hx, -⟩ := List.map_eq_cons_iff.mp hq.symm
  obtain ⟨xs, ys, e, hxs, hsp, -⟩ := List.filter_eq_cons_iff.mp hf
  obtain ⟨rfl, rfl⟩ := of_decide_eq_true hsp
  refine ⟨xs, x, ys, e, by rw [RefOrder.place, hx], fun y hy e => hxs y hy (decide_eq_true e)⟩

theorem tradable_iff {side : Side} {price : Option Price} {x : RefOrder} :
    tradable side price x = true ↔ x.side = opposite side ∧ reaches side price x.price = true := by
  rw [tradable, Bool.and_eq_true, decide_eq_true_eq]
  refine and_congr_left fun _ => ⟨Side.opposite_of_ne, fun e => ?_⟩
  rw [e]
  cases side <;> nofun

/-- No level is reached that is worse than one which is not. -/
theorem reached {side : Side} {limit : Option Price} {l : PriceLevel} {ls : List PriceLevel}
    (hs : Sorted (opposite side) (l :: ls)) (hr : reaches side limit l.price = false) :
    ∀ l' ∈ l :: ls, reaches side limit l'.price = false := by
  intro l' hl'
  rcases List.mem_cons.mp hl' with rfl | hl'
  · exact hr
  · refine Bool.eq_false_iff.mpr fun e => ?_
    rw [reaches_mono e (hs.head_better hl')] at hr
    cases hr

theorem best_none (b : ReferenceBook) (h : Holds b.live a) {side : Side} {limit : Option Price}
    (hr : ∀ l ∈ a.levels (opposite side), reaches side limit l.price = false) :
    b.bestCounterparty side limit = none := by
  have hspec := bestCounterparty_spec b side limit
  match hb : b.bestCounterparty side limit with
  | none => rfl
  | some (i, x) =>
    rw [hb] at hspec
    obtain ⟨hi, ht, -⟩ := hspec
    obtain ⟨hs, hx⟩ := tradable_iff.mp ht
    obtain ⟨l, hl, hp, -⟩ := h.level (List.mem_of_getElem? hi)
    rw [hs] at hl
    rw [← hp, hr l hl] at hx
    cases hx

theorem best_eq (b : ReferenceBook) (h : Holds b.live a) {side : Side} {limit : Option Price} {p : Price}
    {o : Resting} {os : List Resting} {ls : List PriceLevel}
    (hl : a.levels (opposite side) = ⟨p, o :: os⟩ :: ls) (hr : reaches side limit p = true) :
    ∃ xs x ys, b.live = xs ++ x :: ys ∧ x.place = ⟨opposite side, p, o⟩ ∧
      b.bestCounterparty side limit = some (xs.length, x) := by
  obtain ⟨xs, x, ys, hlive, hplace, hxs⟩ := h.front hl
  obtain ⟨hxs', hxp⟩ : x.side = opposite side ∧ x.price = p :=
    ⟨congrArg Place.side hplace, congrArg Place.price hplace⟩
  have hxm : x ∈ b.live := by
    rw [hlive]
    exact List.mem_append_right _ List.mem_cons_self
  have hxt : tradable side limit x = true := tradable_iff.mpr ⟨hxs', by rw [hxp]; exact hr⟩
  have hsorted : Sorted (opposite side) (⟨p, o :: os⟩ :: ls) := hl ▸ (h.wf.side _).sorted
  -- no order that can be traded with comes before the front
  have hfirst : ∀ y ∈ b.live, tradable side limit y = true → before side y x = false := by
    intro y hy hyt
    obtain ⟨l, hlm, hlp, -⟩ := h.level hy
    rw [(tradable_iff.mp hyt).1, hl] at hlm
    rw [before_eq]
    rcases List.mem_cons.mp hlm with rfl | hlm
    · rw [if_pos (hlp.symm.trans hxp.symm)]
      refine decide_eq_false fun hlt => ?_
      have hpw := h.seqs
      rw [hlive, List.map_append, List.map_cons, List.pairwise_append] at hpw
      rw [hlive] at hy
      rcases List.mem_append.mp hy with hy | hy
      · exact hxs y hy ⟨(tradable_iff.mp hyt).1, hlp.symm⟩
      · rcases List.mem_cons.mp hy with rfl | hy
        · exact UInt64.lt_irrefl _ hlt
        · exact UInt64.lt_asymm hlt ((List.pairwise_cons.mp hpw.2.1).1 _ (List.mem_map_of_mem hy))
    · have hb := hsorted.head_better hlm
      rw [hlp] at hb
      rw [if_neg fun e => ?_, hxp]
      · exact Bool.eq_false_iff.mpr fun e => by
          have := Side.better_trans e hb
          rw [Side.better_irrefl] at this
          cases this
      · rw [e, hxp, Side.better_irrefl] at hb
        cases hb
  have hspec := bestCounterparty_spec b side limit
  refine ⟨xs, x, ys, hlive, hplace, ?_⟩
  match hb : b.bestCounterparty side limit with
  | none =>
    rw [hb] at hspec
    rw [hspec x hxm] at hxt
    cases hxt
  | some (j, y) =>
    rw [hb] at hspec
    obtain ⟨hj, hyt, hy⟩ := hspec
    have hym := List.mem_of_getElem? hj
    have e : y = x := h.seq_inj hym hxm (before_total (hfirst y hym hyt) (hy x hxm hxt)).2
    subst e
    have hat : b.live[xs.length]? = some y := by
      rw [hlive, List.getElem?_append_right (Nat.le_refl _), Nat.sub_self]
      rfl
    have hlt : xs.length < b.live.length := by
      rw [hlive, List.length_append, List.length_cons]
      omega
    rw [(List.getElem?_inj hlt h.nodup).mp (hat.trans hj.symm)]

/-! ### Changes -/

theorem remove (h : Holds live a) {x : RefOrder} (hx : x ∈ live) :
    Holds (live.eraseP fun o => o.id = x.id) (a.remove x.place) := by
  refine ⟨?_, h.wf.remove _, h.seqs.sublist (List.eraseP_sublist.map _)⟩
  have hf := h.flat.remove h.wf (List.mem_map_of_mem hx)
  rwa [List.eraseP_map] at hf

section At

variable {xs ys : List RefOrder} {x : RefOrder}

theorem removeAt (h : Holds live a) (hlive : live = xs ++ x :: ys) :
    Holds (live.eraseIdx xs.length) (a.remove x.place) := by
  subst hlive
  have hnd := h.ids
  rw [List.map_append, List.map_cons, List.nodup_append] at hnd
  have hx := h.remove (x := x) (List.mem_append_right _ List.mem_cons_self)
  rw [List.eraseP_append_right, List.eraseP_cons_of_pos (by simp)] at hx
  · rwa [List.eraseIdx_append_of_length_le (Nat.le_refl _), Nat.sub_self]
  · intro y hy e
    exact hnd.2.2 _ (List.mem_map_of_mem hy) _ List.mem_cons_self (of_decide_eq_true e)

/-- The reduction of an id changes one order. -/
theorem map_reduce (h : Holds (xs ++ x :: ys) a) (take : Qty) :
    ((xs ++ x :: ys).map RefOrder.place).map (Place.reduce x.id take) =
      (xs ++ { x with qty := x.qty - take } :: ys).map RefOrder.place := by
  have hnd := h.ids
  rw [List.map_append, List.map_cons, List.nodup_append] at hnd
  have hother : ∀ zs : List RefOrder, (∀ z ∈ zs, z.id ≠ x.id) →
      (zs.map RefOrder.place).map (Place.reduce x.id take) = zs.map RefOrder.place := by
    intro zs hzs
    rw [List.map_map]
    exact List.map_congr_left fun z hz => Place.reduce_of_ne (hzs z hz) take
  have hself : Place.reduce x.id take x.place = ({ x with qty := x.qty - take } : RefOrder).place :=
    Place.reduce_self take x.place
  rw [List.map_append, List.map_cons, List.map_append, List.map_cons, hself,
    hother xs fun z hz e => hnd.2.2 _ (List.mem_map_of_mem hz) _ List.mem_cons_self e,
    hother ys fun z hz e => (List.nodup_cons.mp hnd.2.1).1 (by rw [← e]; exact List.mem_map_of_mem hz),
    List.map_append, List.map_cons]

theorem reduceAt (h : Holds live a) (hlive : live = xs ++ x :: ys) {take : Qty} (hlt : take < x.qty) :
    Holds (live.set xs.length { x with qty := x.qty - take }) (a.reduce x.place take) := by
  subst hlive
  have hx : x.place ∈ (xs ++ x :: ys).map RefOrder.place :=
    List.mem_map_of_mem (List.mem_append_right _ List.mem_cons_self)
  have hf : a.find x.id = some x.place :=
    (Spec.Book.find_eq_some_iff h.wf.nodup).mpr ⟨(h.flat.mem h.wf).mp hx, rfl⟩
  rw [List.set_append_right _ _ (Nat.le_refl _), Nat.sub_self, List.set_cons_zero]
  refine ⟨?_, h.wf.reduce hf hlt, ?_⟩
  · rw [← h.map_reduce]
    exact h.flat.reduce h.wf hx take
  · have := h.seqs
    rwa [List.map_append, List.map_cons] at this ⊢

end At

theorem congr {a' : Spec.Book} (h : Holds live a) (hl : a'.levels = a.levels) : Holds live a' :=
  ⟨h.flat.congr hl, ⟨by rw [hl]; exact h.wf.side, by rw [Spec.Book.ids, hl]; exact h.wf.nodup⟩, h.seqs⟩

theorem rest (h : Holds live a) {x : RefOrder} (hok : x.resting.Ok) (hid : x.id ∉ a.ids)
    (hseq : ∀ q ∈ live.map RefOrder.seq, q < x.seq) :
    Holds (live ++ [x]) (a.rest x.side x.price x.resting) := by
  refine ⟨?_, h.wf.rest hok hid _ _, ?_⟩
  · rw [List.map_append]
    exact h.flat.rest h.wf x.side x.price hid
  · rw [List.map_append, List.pairwise_append]
    refine ⟨h.seqs, List.pairwise_singleton _ _, fun q hq q' hq' => ?_⟩
    rw [List.map_singleton, List.mem_singleton] at hq'
    rw [hq']
    exact hseq q hq

end Holds

end ReferenceBook

end Pricetime
