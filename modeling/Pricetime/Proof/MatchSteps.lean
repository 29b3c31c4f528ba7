import Pricetime.Proof.Matching

/-!
# Matching order by order

The recursion of abstract matching, over levels and their queues, unfolded at
the order that is met first: the oldest of the best level (`matchOrder_stop`,
and one lemma for each way of meeting it). What is done to the book there is
the removal or the reduction of that order, so a machine that knows only
orders can be followed step by step.
-/

namespace Pricetime

namespace Spec

theorem matchLevels_cons (policy : SelfTradePolicy) (aggressor : OrderId) (actor : ParticipantId)
    (reach : Price → Bool) (p : Price) (o : Resting) (os : List Resting) (ls : List PriceLevel) (qty : Qty)
    (c : Counters) (hq : qty ≠ 0) (hr : reach p = true) :
    matchLevels policy aggressor actor reach (⟨p, o :: os⟩ :: ls) qty c =
      if prevents policy actor o.participant then
        match policy with
        | .cancelAggressor => ⟨⟨p, o :: os⟩ :: ls, 0, [], c.prevent.cancel qty⟩
        | .cancelBoth => ⟨keep p os ++ ls, 0, [], (c.prevent.cancel o.qty).cancel qty⟩
        | _ => matchLevels policy aggressor actor reach (keep p os ++ ls) qty (c.prevent.cancel o.qty)
      else if qty < o.qty then
        ⟨⟨p, { o with qty := o.qty - qty } :: os⟩ :: ls, 0, [⟨o.id, aggressor, p, qty⟩], c.trade qty⟩
      else
        let r := matchLevels policy aggressor actor reach (keep p os ++ ls) (qty - o.qty) (c.trade o.qty)
        { r with execs := ⟨o.id, aggressor, p, o.qty⟩ :: r.execs } := by
  -- the rest of the queue, whether or not it is empty
  have next : ∀ (qty : Qty) (c : Counters),
      (let r := matchQueue policy aggressor actor p os qty c
        if r.killed then (⟨keep p r.rest ++ ls, 0, r.execs, r.counters⟩ : SideMatch)
        else
          let r' := matchLevels policy aggressor actor reach ls r.left r.counters
          ⟨keep p r.rest ++ r'.levels, r'.left, r.execs ++ r'.execs, r'.counters⟩) =
      matchLevels policy aggressor actor reach (keep p os ++ ls) qty c := by
    intro qty c
    cases os with
    | nil => rfl
    | cons o' os =>
      show _ = matchLevels policy aggressor actor reach (⟨p, o' :: os⟩ :: ls) qty c
      by_cases h0 : qty = 0
      · have hdone : matchQueue policy aggressor actor p (o' :: os) qty c = ⟨o' :: os, qty, false, [], c⟩ := by
          unfold matchQueue
          rw [if_pos h0]
        rw [matchLevels, if_pos h0, hdone, h0]
        simp only [Bool.false_eq_true, if_false, matchLevels_zero]
        rfl
      · rw [matchLevels, if_neg h0, if_pos hr]
  rw [matchLevels, if_neg hq, if_pos hr]
  simp only [matchQueue, if_neg hq]
  split
  · cases policy with
    | none => exact next qty (c.prevent.cancel o.qty)
    | cancelResting => exact next qty (c.prevent.cancel o.qty)
    | cancelAggressor => rfl
    | cancelBoth => rfl
  · split
    · simp only [Bool.false_eq_true, if_false, matchLevels_zero, List.append_nil]
      rfl
    · have := next (qty - o.qty) (c.trade o.qty)
      rw [← this]
      simp only
      split <;> rfl

namespace Book

variable {a : Book} {side : Side} {p : Price} {o : Resting} {os : List Resting} {ls : List PriceLevel}

theorem setLevels_eq_self (a : Book) (s : Side) : a.setLevels s (a.levels s) = a := by
  rw [setLevels, Function.update_eq_self]

/-- An aggressor with nothing left, or that reaches no level, stops. -/
theorem matchOrder_stop (a : Book) (aggressor : OrderId) (actor : ParticipantId) (side : Side)
    (limit : Option Price) (qty : Qty)
    (h : qty = 0 ∨ ∀ l ∈ a.levels (opposite side), reaches side limit l.price = false) :
    a.matchOrder aggressor actor side limit qty = (a, qty, []) := by
  have hm : matchLevels a.stp aggressor actor (reaches side limit) (a.levels (opposite side)) qty
      a.counters = ⟨a.levels (opposite side), qty, [], a.counters⟩ := by
    cases hl : a.levels (opposite side) with
    | nil => rfl
    | cons l ls =>
      rw [matchLevels]
      rcases h with rfl | h
      · rw [if_pos rfl]
      · have := h l (by rw [hl]; exact List.mem_cons_self)
        split
        · rfl
        · rw [if_neg (by rw [this]; exact Bool.false_ne_true)]
  rw [matchOrder, hm]
  exact congrArg (fun b => (b, qty, [])) (setLevels_eq_self a (opposite side))

/-- The best level's queue without its oldest order. -/
theorem remove_front {s : Side} (hl : a.levels s = ⟨p, o :: os⟩ :: ls) :
    a.remove ⟨s, p, o⟩ = a.setLevels s (keep p os ++ ls) := by
  rw [remove, hl, modifyAt, if_pos rfl, dropId, List.eraseP_cons_of_pos (by simp)]

theorem reduce_front {s : Side} (hl : a.levels s = ⟨p, o :: os⟩ :: ls) (hn : (o :: os).map Resting.id |>.Nodup)
    (take : Qty) :
    a.reduce ⟨s, p, o⟩ take = a.setLevels s (⟨p, { o with qty := o.qty - take } :: os⟩ :: ls) := by
  have hos : reduceId o.id take os = os := by
    refine (List.map_congr_left fun x hx => ?_).trans (List.map_id os)
    exact if_neg fun e => (List.nodup_cons.mp hn).1 (by rw [← e]; exact List.mem_map_of_mem hx)
  have hcons : reduceId o.id take (o :: os) = { o with qty := o.qty - take } :: os := by
    rw [reduceId] at hos ⊢
    rw [List.map_cons, if_pos rfl, hos]
  rw [reduce, hl, modifyAt, if_pos rfl, hcons, keep, if_neg (List.cons_ne_nil _ _)]
  rfl

/-- One step of matching against the order met first. -/
theorem matchOrder_step (aggressor : OrderId) (actor : ParticipantId) {limit : Option Price} {qty : Qty}
    (hl : a.levels (opposite side) = ⟨p, o :: os⟩ :: ls) (hn : (o :: os).map Resting.id |>.Nodup)
    (hq : qty ≠ 0) (hr : reaches side limit p = true) :
    a.matchOrder aggressor actor side limit qty =
      if prevents a.stp actor o.participant then
        match a.stp with
        | .cancelAggressor => ({ a with counters := a.counters.prevent.cancel qty }, 0, [])
        | .cancelBoth =>
          ((({ a with counters := a.counters.prevent } : Book).cancelOpen ⟨opposite side, p, o⟩).countCanceled
            qty, 0, [])
        | _ => (({ a with counters := a.counters.prevent } : Book).cancelOpen ⟨opposite side, p, o⟩).matchOrder
            aggressor actor side limit qty
      else if qty < o.qty then
        (({ a with counters := a.counters.trade qty } : Book).reduce ⟨opposite side, p, o⟩ qty, 0,
          [⟨o.id, aggressor, p, qty⟩])
      else
        let r := (({ a with counters := a.counters.trade o.qty } : Book).remove ⟨opposite side, p, o⟩).matchOrder
          aggressor actor side limit (qty - o.qty)
        (r.1, r.2.1, ⟨o.id, aggressor, p, o.qty⟩ :: r.2.2) := by
  have hself : ∀ c : Counters, ({ a with counters := c } : Book).levels (opposite side) = ⟨p, o :: os⟩ :: ls :=
    fun _ => hl
  have hidem : ∀ (c : Counters) (ls' : List PriceLevel),
      (({ a with counters := c } : Book).setLevels (opposite side) (keep p os ++ ls)).setLevels (opposite side)
        ls' = ({ a with counters := c } : Book).setLevels (opposite side) ls' := fun c ls' => by
    simp only [setLevels, Function.update_idem]
  -- matching goes on with the rest of the side
  have next : ∀ (c : Counters) (qty : Qty),
      (({ a with counters := c } : Book).remove ⟨opposite side, p, o⟩).matchOrder aggressor actor side limit qty =
        let r := matchLevels a.stp aggressor actor (reaches side limit) (keep p os ++ ls) qty c
        (({ a with counters := r.counters } : Book).setLevels (opposite side) r.levels, r.left, r.execs) := by
    intro c qty
    rw [remove_front (hself c), matchOrder, setLevels_self]
    exact Prod.ext (hidem (matchLevels a.stp aggressor actor (reaches side limit) (keep p os ++ ls) qty
      c).counters _) rfl
  rw [matchOrder, hl, matchLevels_cons _ _ _ _ _ _ _ _ _ _ hq hr]
  by_cases hp : prevents a.stp actor o.participant = true
  · rw [if_pos hp, if_pos hp]
    have hkill : ({ a with counters := a.counters.prevent } : Book).cancelOpen ⟨opposite side, p, o⟩ =
      ({ a with counters := a.counters.prevent.cancel o.qty } : Book).remove ⟨opposite side, p, o⟩ := rfl
    have hstay : ({ a with counters := a.counters.prevent.cancel qty } : Book) =
        ({ a with counters := a.counters.prevent.cancel qty } : Book).setLevels (opposite side)
          (⟨p, o :: os⟩ :: ls) := by
      rw [← hself (a.counters.prevent.cancel qty), setLevels_eq_self]
    rw [hkill, next, remove_front (hself _), hstay]
    cases a.stp <;> rfl
  · rw [if_neg hp, if_neg hp]
    by_cases hlt : qty < o.qty
    · rw [if_pos hlt, if_pos hlt, reduce_front (hself _) hn]
    · rw [if_neg hlt, if_neg hlt, next]

end Book

end Spec

end Pricetime
