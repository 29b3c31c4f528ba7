import Pricetime.Proof.Reference

/-!
# What the reference book scans and shows

* `Holds.reachable_lt_iff`: the pre-scan of a fill-or-kill order over the
  sorted crossing orders finds as much as the abstract book has available.
* `Holds.levels_eq`: the levels that `state_hash` gathers are those of the
  abstract book.
-/

namespace Pricetime

open Spec (Resting PriceLevel Place queueIn restingAt Flat Sorted availableQueue availableLevels prevents)

namespace Spec

/-! ## Availability over a list of orders -/

theorem availableQueue_append (policy : SelfTradePolicy) (actor : ParticipantId) (ys : List Resting) :
    ∀ xs : List Resting, availableQueue policy actor (xs ++ ys) =
      if (availableQueue policy actor xs).2 then
        ((availableQueue policy actor xs).1 + (availableQueue policy actor ys).1, (availableQueue policy actor ys).2)
      else availableQueue policy actor xs
  | [] => by
    rw [List.nil_append, availableQueue, if_pos rfl, Nat.zero_add]
  | o :: xs => by
    have ih := availableQueue_append policy actor ys xs
    rw [List.cons_append, availableQueue, availableQueue]
    split
    · split
      · exact ih
      · rfl
    · dsimp only
      rw [ih]
      split
      · rw [Nat.add_assoc]
      · rfl

/-- The levels reached, as one queue. -/
theorem availableLevels_eq (policy : SelfTradePolicy) (actor : ParticipantId) {side : Side}
    {limit : Option Price} : ∀ {ls : List PriceLevel}, Sorted (opposite side) ls →
      availableLevels policy actor (reaches side limit) ls =
        (availableQueue policy actor
          ((ls.filter fun l => reaches side limit l.price).flatMap PriceLevel.orders)).1
  | [], _ => rfl
  | l :: ls, h => by
    rw [availableLevels]
    cases hr : reaches side limit l.price with
    | true =>
      rw [if_pos rfl, List.filter_cons_of_pos (by exact hr), List.flatMap_cons, availableQueue_append,
        availableLevels_eq policy actor h.tail]
      dsimp only
      split <;> rfl
    | false =>
      have hnone : (l :: ls).filter (fun l => reaches side limit l.price) = [] :=
        List.filter_eq_nil_iff.mpr fun l' hl' e => by
          rw [ReferenceBook.Holds.reached h hr l' hl'] at e
          cases e
      rw [if_neg Bool.false_ne_true, hnone]
      rfl

end Spec

namespace ReferenceBook

/-! ## The pre-scan -/

/-- The pre-scan stops at the need, or has the whole sum. -/
theorem reachable_lt_iff (policy : SelfTradePolicy) (actor : ParticipantId) (qty : Qty) :
    ∀ (os : List RefOrder) (total : UInt64), total < qty.toUInt64 →
      (reachable (decide (actor ≠ 0) && decide (policy ≠ .none))
          (decide (policy = .cancelAggressor) || decide (policy = .cancelBoth)) actor qty os total <
            qty.toUInt64 ↔
        total.toNat + (availableQueue policy actor (os.map RefOrder.resting)).1 < qty.toNat)
  | [], total, h => by
    rw [reachable, UInt64.lt_iff_toNat_lt, UInt32.toNat_toUInt64]
    rfl
  | o :: os, total, h => by
    have ih := reachable_lt_iff policy actor qty os
    have hprevents : ((decide (actor ≠ 0) && decide (policy ≠ .none)) = true ∧ o.participant = actor) ↔
        prevents policy actor o.participant = true := by
      simp only [prevents, Bool.and_eq_true, decide_eq_true_eq]
    rw [reachable, List.map_cons, availableQueue]
    by_cases hp : prevents policy actor o.participant = true
    · rw [if_pos (hprevents.mpr hp), if_pos (show prevents policy actor o.resting.participant = true from hp)]
      have hstops : (decide (policy = .cancelAggressor) || decide (policy = .cancelBoth)) = true ↔
          ¬ policy = .cancelResting := by
        cases policy with
        | none => simp [prevents] at hp
        | cancelResting => decide
        | cancelAggressor => decide
        | cancelBoth => decide
      by_cases hs : policy = .cancelResting
      · rw [if_neg fun e => hstops.mp e hs, if_pos hs]
        exact ih total h
      · rw [if_pos (hstops.mpr hs), if_neg hs, UInt64.lt_iff_toNat_lt, UInt32.toNat_toUInt64]
        rfl
    · rw [if_neg fun e => hp (hprevents.mp e), if_neg (show ¬ prevents policy actor o.resting.participant = true from hp)]
      have ht : (total + o.qty.toUInt64).toNat = total.toNat + o.qty.toNat := by
        have := UInt64.lt_iff_toNat_lt.mp h
        have := qty.toNat_lt
        have := o.qty.toNat_lt
        rw [UInt32.toNat_toUInt64] at *
        rw [UInt64.toNat_add, UInt32.toNat_toUInt64]
        omega
      dsimp only
      by_cases hge : total + o.qty.toUInt64 ≥ qty.toUInt64
      · have hle := UInt64.le_iff_toNat_le.mp hge
        rw [ht, UInt32.toNat_toUInt64] at hle
        rw [if_pos hge, UInt64.lt_iff_toNat_lt, ht, UInt32.toNat_toUInt64]
        show _ ↔ total.toNat + (o.qty.toNat + _) < _
        omega
      · rw [if_neg hge, ih _ (UInt64.not_le.mp hge), ht, Nat.add_assoc]
        rfl

namespace Holds

variable {b : ReferenceBook} {a : Spec.Book}

/-- The orders of some levels of a side, level by level. -/
def byLevel (live : List RefOrder) (s : Side) (ls : List PriceLevel) : List RefOrder :=
  ls.flatMap fun l => live.filter fun o => o.side = s ∧ o.price = l.price

theorem mem_byLevel {live : List RefOrder} {s : Side} {ls : List PriceLevel} {x : RefOrder} :
    x ∈ byLevel live s ls ↔ x ∈ live ∧ x.side = s ∧ ∃ l ∈ ls, l.price = x.price := by
  simp only [byLevel, List.mem_flatMap, List.mem_filter, decide_eq_true_eq]
  constructor
  · rintro ⟨l, hl, hx, hs, hp⟩
    exact ⟨hx, hs, l, hl, hp.symm⟩
  · rintro ⟨hx, hs, l, hl, hp⟩
    exact ⟨l, hl, hx, hs, hp.symm⟩

theorem byLevel_resting (h : Holds b.live a) {s : Side} {ls : List PriceLevel} (hls : ∀ l ∈ ls, l ∈ a.levels s) :
    (byLevel b.live s ls).map RefOrder.resting = ls.flatMap PriceLevel.orders := by
  rw [byLevel, List.map_flatMap]
  refine List.flatMap_congr fun l hl => ?_
  rw [← restingAt_live, ← h.flat.queue, Spec.queueIn_of_mem (h.wf.side s).sorted (hls l hl)]

/-- Level by level is in priority. -/
theorem byLevel_before (h : Holds b.live a) (side : Side) {ls : List PriceLevel}
    (hls : Sorted (opposite side) ls) :
    (byLevel b.live (opposite side) ls).Pairwise fun x y => before side x y = true := by
  refine List.pairwise_flatMap.mpr ⟨fun l _ => ?_, ?_⟩
  · refine List.Pairwise.imp_of_mem ?_ ((List.pairwise_map.mp h.seqs).filter _)
    intro x y hx hy hlt
    obtain ⟨-, hx⟩ := of_decide_eq_true (List.mem_filter.mp hx).2
    obtain ⟨-, hy⟩ := of_decide_eq_true (List.mem_filter.mp hy).2
    rw [before_eq, if_pos (hx.trans hy.symm)]
    exact decide_eq_true hlt
  · refine (List.pairwise_map.mp hls).imp fun {l l'} hb x hx y hy => ?_
    obtain ⟨-, hx⟩ := of_decide_eq_true (List.mem_filter.mp hx).2
    obtain ⟨-, hy⟩ := of_decide_eq_true (List.mem_filter.mp hy).2
    rw [before_eq, hx, hy, if_neg fun e => ?_]
    · exact hb
    · rw [e, Side.better_irrefl] at hb
      cases hb

theorem crossing_sorted (b : ReferenceBook) (side : Side) (limit : Option Price) :
    (b.crossingInPriorityOrder side limit).Pairwise fun x y => (!before side y x) = true := by
  refine List.pairwise_mergeSort (fun x y z hxy hyz => ?_) (fun x y => ?_) _
  · simp only [Bool.not_eq_true'] at *
    refine Bool.eq_false_iff.mpr fun hzx => ?_
    cases hyz' : before side y z with
    | true =>
      rw [before_trans hyz' hzx] at hxy
      cases hxy
    | false =>
      obtain ⟨hp, hs⟩ := before_total hyz' hyz
      rw [before_eq] at hxy hzx
      rw [hp, hs, hzx] at hxy
      cases hxy
  · cases hyx : before side y x with
    | false => rfl
    | true => rw [before_asymm hyx]; rfl

theorem crossing_eq (h : Holds b.live a) (side : Side) (limit : Option Price) :
    b.crossingInPriorityOrder side limit =
      byLevel b.live (opposite side)
        ((a.levels (opposite side)).filter fun l => reaches side limit l.price) := by
  have hsorted : Sorted (opposite side)
      ((a.levels (opposite side)).filter fun l => reaches side limit l.price) :=
    (h.wf.side _).sorted.sublist (List.filter_sublist.map _)
  have hbefore := h.byLevel_before side hsorted
  have hperm := List.mergeSort_perm (b.live.filter (tradable side limit)) fun x y => !before side y x
  refine List.Perm.eq_of_pairwise ?_ (crossing_sorted b side limit)
    (hbefore.imp fun hxy => by rw [before_asymm hxy]; rfl) (hperm.trans ?_)
  · intro x y hx hy hxy hyx
    refine h.seq_inj (List.mem_filter.mp (hperm.mem_iff.mp hx)).1 (mem_byLevel.mp hy).1
      (@before_total side x y ?_ ?_).2
    · simpa using hyx
    · simpa using hxy
  · refine (List.perm_ext_iff_of_nodup (h.nodup.filter _) (hbefore.imp fun hxy e => ?_)).mpr fun x => ?_
    · rw [e, before_irrefl] at hxy
      cases hxy
    · rw [List.mem_filter, mem_byLevel, tradable_iff]
      refine and_congr_right fun hx => and_congr_right fun hs => ?_
      constructor
      · intro hr
        obtain ⟨l, hl, hp, -⟩ := h.level hx
        exact ⟨l, List.mem_filter.mpr ⟨hs ▸ hl, by rw [hp]; exact hr⟩, hp⟩
      · rintro ⟨l, hl, hp⟩
        rw [← hp]
        exact (List.mem_filter.mp hl).2

theorem reachable_lt_iff (h : Holds b.live a) (hstp : b.stp = a.stp) (side : Side) (limit : Option Price)
    {qty : Qty} (hq : qty ≠ 0) (actor : ParticipantId) :
    reachable (b.stpOn actor) (decide (b.stp = .cancelAggressor) || decide (b.stp = .cancelBoth)) actor qty
        (b.crossingInPriorityOrder side limit) 0 < qty.toUInt64 ↔
      a.available side limit actor < qty.toNat := by
  have hpos : (0 : UInt64) < qty.toUInt64 := by
    rw [UInt64.lt_iff_toNat_lt, UInt32.toNat_toUInt64]
    exact Nat.pos_of_ne_zero fun e => hq (UInt32.toNat_inj.mp e)
  rw [stpOn, ReferenceBook.reachable_lt_iff b.stp actor qty _ 0 hpos, h.crossing_eq,
    h.byLevel_resting fun l hl => (List.mem_filter.mp hl).1, Spec.Book.available,
    Spec.availableLevels_eq _ _ (h.wf.side _).sorted, hstp, UInt64.toNat_zero, Nat.zero_add]

/-! ## The levels -/

theorem mem_prices (h : Holds b.live a) {s : Side} {p : Price} :
    p ∈ (a.levels s).map PriceLevel.price ↔
      p ∈ ((b.live.filter fun o => o.side = s).map fun o => o.price).dedup := by
  simp only [List.mem_dedup, List.mem_map, List.mem_filter, decide_eq_true_eq]
  constructor
  · rintro ⟨l, hl, rfl⟩
    obtain ⟨o, ho⟩ := List.exists_mem_of_ne_nil _ ((h.wf.side s).level l hl).1
    have hm : (⟨s, l.price, o⟩ : Place) ∈ a.places := Spec.Book.mem_places.mpr ⟨l, hl, rfl, ho⟩
    obtain ⟨x, hx, e⟩ := List.mem_map.mp ((h.flat.mem h.wf).mpr hm)
    exact ⟨x, ⟨hx, congrArg Place.side e⟩, congrArg Place.price e⟩
  · rintro ⟨x, ⟨hx, rfl⟩, rfl⟩
    obtain ⟨l, hl, hp, -⟩ := h.level hx
    exact ⟨l, hl, hp⟩

theorem prices_eq (h : Holds b.live a) (s : Side) : b.prices s = (a.levels s).map PriceLevel.price := by
  have hsorted := (h.wf.side s).sorted
  have hnd : ((a.levels s).map PriceLevel.price).Nodup := hsorted.imp fun hb e => by
    rw [e, Side.better_irrefl] at hb
    cases hb
  have hperm := (List.mergeSort_perm ((b.live.filter fun o => o.side = s).map fun o => o.price).dedup
    fun p p' => decide (p ≤ p')).trans
      ((List.perm_ext_iff_of_nodup (List.nodup_dedup _) hnd).mpr fun p => h.mem_prices.symm)
  have hkeys := @List.pairwise_mergeSort _ (fun p p' : Price => decide (p ≤ p'))
    (fun x y z => by simpa using Int64.le_trans) (fun x y => by simpa using Int64.le_total x y)
    ((b.live.filter fun o => o.side = s).map fun o => o.price).dedup
  have hanti : ∀ x y : Price, decide (x ≤ y) = true → decide (y ≤ x) = true → x = y := fun x y hxy hyx =>
    Int64.le_antisymm (of_decide_eq_true hxy) (of_decide_eq_true hyx)
  unfold prices
  cases s with
  | bid =>
    refine @List.Perm.eq_of_pairwise _ (fun x y => decide (y ≤ x) = true) _ _
      (fun x y _ _ hxy hyx => hanti x y hyx hxy)
      (List.pairwise_reverse.mpr hkeys) (hsorted.imp fun hb => ?_) ((List.reverse_perm _).trans hperm)
    exact decide_eq_true (Int64.le_of_lt (of_decide_eq_true hb))
  | ask =>
    refine List.Perm.eq_of_pairwise (fun x y _ _ => hanti x y) hkeys (hsorted.imp fun hb => ?_) hperm
    exact decide_eq_true (Int64.le_of_lt (of_decide_eq_true hb))

theorem ordersAt_eq (h : Holds b.live a) (s : Side) (p : Price) :
    b.ordersAt s p = b.live.filter fun o => o.side = s ∧ o.price = p := by
  refine List.mergeSort_of_pairwise (((List.pairwise_map.mp h.seqs).filter _).imp fun {x y} hlt => ?_)
  simpa using UInt64.le_of_lt hlt

/-- The sum that `state_hash` mixes. -/
theorem foldl_totalQty : ∀ (os : List RefOrder) (total : UInt64),
    os.foldl (fun total o => total + o.qty.toUInt64) total = total + Spec.totalQty (os.map RefOrder.resting)
  | [], total => (UInt64.add_zero total).symm
  | o :: os, total => by
    rw [List.foldl_cons, foldl_totalQty os, List.map_cons, Spec.totalQty, UInt64.add_assoc]
    rfl

theorem level_eq (h : Holds b.live a) {s : Side} {l : PriceLevel} (hl : l ∈ a.levels s) :
    b.level s l.price = l.view := by
  have hq : (b.ordersAt s l.price).map RefOrder.resting = l.orders := by
    rw [h.ordersAt_eq, ← restingAt_live, ← h.flat.queue, Spec.queueIn_of_mem (h.wf.side s).sorted hl]
  rw [PriceLevel.view, ← hq, List.length_map, List.map_map, ReferenceBook.level]
  rw [foldl_totalQty, UInt64.zero_add]
  rfl

theorem levels_eq (h : Holds b.live a) (s : Side) : b.levels s = a.walk s := by
  rw [levels, h.prices_eq, List.map_map, Spec.Book.walk]
  exact List.map_congr_left fun l hl => h.level_eq hl

end Holds

end ReferenceBook

end Pricetime
