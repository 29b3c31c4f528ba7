import Pricetime.Proof.FlatBook
import Pricetime.Proof.MatchSteps

/-!
# The places of a book, and matching over them

A change of the book, as a change of the set of places where orders rest
(`mem_places_remove`, `mem_places_reduce`, `mem_places_rest`), and the
induction over matching: one case for each way in which an aggressor meets the
order in front (`matchOrder_induct`).
-/

namespace Pricetime

namespace Spec

theorem restingAt_append (ps qs : List Place) (s : Side) (p : Price) :
    restingAt (ps ++ qs) s p = restingAt ps s p ++ restingAt qs s p := by
  rw [restingAt, List.filter_append, List.map_append]
  rfl

theorem restingAt_placesOf_self (s : Side) (p : Price) : ∀ {ls : List PriceLevel}, Sorted s ls →
    restingAt (placesOf s ls) s p = queueIn p ls
  | [], _ => rfl
  | l :: ls, h => by
    have hcons : placesOf s (l :: ls) = (l.orders.map fun o => ⟨s, l.price, o⟩) ++ placesOf s ls := rfl
    have hself : restingAt (l.orders.map fun o => ⟨s, l.price, o⟩) s p = if l.price = p then l.orders else [] := by
      rw [restingAt, List.filter_map, List.map_map]
      by_cases e : l.price = p
      · rw [if_pos e, List.filter_eq_self.mpr (by simp [e])]
        exact List.map_id _
      · rw [if_neg e, List.filter_eq_nil_iff.mpr (by simp [e]), List.map_nil]
    rw [hcons, restingAt_append, hself, restingAt_placesOf_self s p h.tail, queueIn_cons]
    by_cases e : l.price = p
    · rw [if_pos e, if_pos e, queueIn_eq_nil fun l' hl' => e ▸ h.head_ne hl', List.append_nil]
    · rw [if_neg e, if_neg e, List.nil_append]

theorem restingAt_placesOf_of_ne {s s' : Side} (h : s' ≠ s) (p : Price) (ls : List PriceLevel) :
    restingAt (placesOf s' ls) s p = [] := by
  rw [restingAt, List.filter_eq_nil_iff.mpr fun pl hpl e => h ?_, List.map_nil]
  exact (mem_placesOf.mp hpl).1.symm.trans (of_decide_eq_true e).1

/-- The list of a book's own places. -/
theorem Flat.places {a : Book} (hw : a.Wf) : Flat a.places a := by
  refine ⟨fun s p => ?_, by rw [Book.map_places]; exact hw.nodup⟩
  rw [Book.places, restingAt_append]
  cases s with
  | bid =>
    rw [restingAt_placesOf_self _ p (hw.side .bid).sorted, restingAt_placesOf_of_ne (by decide), List.append_nil]
  | ask => rw [restingAt_placesOf_of_ne (by decide), restingAt_placesOf_self _ p (hw.side .ask).sorted, List.nil_append]

namespace Book

variable {a a' : Book} {pl x : Place}

theorem mem_places_remove (hw : a.Wf) (hpl : pl ∈ a.places) :
    x ∈ (a.remove pl).places ↔ x ∈ a.places ∧ x.order.id ≠ pl.order.id := by
  have hf := Flat.places hw
  rw [← (hf.remove hw hpl).mem (hw.remove pl)]
  obtain ⟨xs, ys, e⟩ := List.append_of_mem hpl
  rw [e] at hf
  have herase : a.places.eraseP (fun x => x.order.id = pl.order.id) = xs ++ ys := by
    rw [e, List.eraseP_append_right _ (fun x hm => by simpa using hf.ne (List.mem_append_left _ hm)),
      List.eraseP_cons_of_pos (by simp)]
  rw [herase, e]
  constructor
  · intro hx
    exact ⟨by simpa [or_left_comm] using .inr (List.mem_append.mp hx), hf.ne hx⟩
  · rintro ⟨hx, hne⟩
    simp only [List.mem_append, List.mem_cons] at hx ⊢
    rcases hx with hx | rfl | hx
    · exact .inl hx
    · exact absurd rfl hne
    · exact .inr hx

theorem mem_places_reduce (hw : a.Wf) (hpl : pl ∈ a.places) {take : Qty} (hlt : take < pl.order.qty) :
    x ∈ (a.reduce pl take).places ↔ ∃ y ∈ a.places, y.reduce pl.order.id take = x := by
  have hfind : a.find pl.order.id = some pl := (find_eq_some_iff hw.nodup).mpr ⟨hpl, rfl⟩
  rw [← ((Flat.places hw).reduce hw hpl take).mem (hw.reduce hfind hlt), List.mem_map]

theorem mem_places_rest (hw : a.Wf) {o : Resting} (ho : o.Ok) (hid : o.id ∉ a.ids) {s : Side} {p : Price} :
    x ∈ (a.rest s p o).places ↔ x ∈ a.places ∨ x = ⟨s, p, o⟩ := by
  rw [← ((Flat.places hw).rest hw s p hid).mem (hw.rest ho hid s p), List.mem_append, List.mem_singleton]

theorem mem_ids_iff {id : OrderId} : id ∈ a.ids ↔ ∃ pl ∈ a.places, pl.order.id = id := by
  rw [← map_places, List.mem_map]

theorem ids_remove (hw : a.Wf) (hpl : pl ∈ a.places) {id : OrderId} :
    id ∈ (a.remove pl).ids ↔ id ∈ a.ids ∧ id ≠ pl.order.id := by
  rw [mem_ids_iff, mem_ids_iff]
  simp only [mem_places_remove hw hpl]
  constructor
  · rintro ⟨x, ⟨hx, hne⟩, rfl⟩
    exact ⟨⟨x, hx, rfl⟩, hne⟩
  · rintro ⟨⟨x, hx, rfl⟩, hne⟩
    exact ⟨x, ⟨hx, hne⟩, rfl⟩

theorem remove_openOrders (hw : a.Wf) (hpl : pl ∈ a.places) : (a.remove pl).openOrders < a.openOrders := by
  have hf := Flat.places hw
  rw [(hf.remove hw hpl).openOrders (hw.remove pl), hf.openOrders hw]
  have hlen := List.length_eraseP_of_mem (p := fun x : Place => decide (x.order.id = pl.order.id)) hpl (by simp)
  have hpos := List.length_pos_of_mem hpl
  omega

/-! ## Meeting the order in front -/

/-- `pl` is the order that an aggressor with `qty` shares meets first. -/
structure Front (a : Book) (s : Side) (limit : Option Price) (left : Qty) (pl : Place) : Prop where
  side : pl.side = opposite s
  first : ∃ os ls, a.levels (opposite s) = ⟨pl.price, pl.order :: os⟩ :: ls
  reach : reaches s limit pl.price = true
  qty : left ≠ 0

theorem Front.mem {side : Side} {limit : Option Price} {qty : Qty} (h : Front a side limit qty pl) : pl ∈ a.places := by
  obtain ⟨os, ls, hl⟩ := h.first
  refine mem_places.mpr ⟨⟨pl.price, pl.order :: os⟩, ?_, rfl, List.mem_cons_self⟩
  rw [h.side, hl]
  exact List.mem_cons_self

/-- An aggressor stops, or meets an order. -/
theorem front_cases (hw : a.Wf) (side : Side) (limit : Option Price) (qty : Qty) :
    (qty = 0 ∨ ∀ l ∈ a.levels (opposite side), reaches side limit l.price = false) ∨
      ∃ pl, Front a side limit qty pl := by
  by_cases hq : qty = 0
  · exact .inl (.inl hq)
  have hs := hw.side (opposite side)
  cases hl : a.levels (opposite side) with
  | nil => exact .inl (.inr nofun)
  | cons l ls =>
    rw [hl] at hs
    obtain ⟨o, os, ho⟩ := List.exists_cons_of_ne_nil (hs.level l List.mem_cons_self).1
    cases hr : reaches side limit l.price with
    | false =>
      refine .inl (.inr fun l' hl' => ?_)
      rcases List.mem_cons.mp hl' with rfl | hl'
      · exact hr
      · refine Bool.eq_false_iff.mpr fun hr' => ?_
        rw [reaches_mono hr' (Sorted.head_better hs.sorted hl')] at hr
        cases hr
    | true => exact .inr ⟨⟨opposite side, l.price, o⟩, rfl, ⟨os, ls, by rw [hl, ← ho]⟩, hr, hq⟩

/-- Induction over the orders that an aggressor meets. -/
theorem matchOrder_induct {aggressor : OrderId} {actor : ParticipantId} {side : Side} {limit : Option Price}
    {motive : Book → Qty → Book × Qty × List Execution → Prop}
    (stop : ∀ {a qty}, a.Wf → (qty = 0 ∨ ∀ l ∈ a.levels (opposite side), reaches side limit l.price = false) →
      motive a qty (a, qty, []))
    (killAggressor : ∀ {a qty pl}, a.Wf → Front a side limit qty pl → a.stp = .cancelAggressor →
      prevents a.stp actor pl.order.participant = true →
      motive a qty ({ a with counters := a.counters.prevent.cancel qty }, 0, []))
    (killBoth : ∀ {a qty pl}, a.Wf → Front a side limit qty pl → a.stp = .cancelBoth →
      prevents a.stp actor pl.order.participant = true →
      motive a qty ((({ a with counters := a.counters.prevent } : Book).cancelOpen pl).countCanceled qty, 0, []))
    (killResting : ∀ {a qty pl r}, a.Wf → Front a side limit qty pl → a.stp = .cancelResting →
      prevents a.stp actor pl.order.participant = true →
      motive (({ a with counters := a.counters.prevent } : Book).cancelOpen pl) qty r → motive a qty r)
    (part : ∀ {a qty pl}, a.Wf → Front a side limit qty pl → prevents a.stp actor pl.order.participant = false →
      qty < pl.order.qty →
      motive a qty (({ a with counters := a.counters.trade qty } : Book).reduce pl qty, 0,
        [⟨pl.order.id, aggressor, pl.price, qty⟩]))
    (whole : ∀ {a qty pl r}, a.Wf → Front a side limit qty pl → prevents a.stp actor pl.order.participant = false →
      ¬ qty < pl.order.qty →
      motive (({ a with counters := a.counters.trade pl.order.qty } : Book).remove pl) (qty - pl.order.qty) r →
      motive a qty (r.1, r.2.1, ⟨pl.order.id, aggressor, pl.price, pl.order.qty⟩ :: r.2.2))
    {a : Book} (hw : a.Wf) (qty : Qty) : motive a qty (a.matchOrder aggressor actor side limit qty) := by
  induction hn : a.openOrders using Nat.strongRecOn generalizing a qty with
  | ind n ih =>
    subst hn
    rcases front_cases hw side limit qty with hstop | ⟨pl, hfront⟩
    · rw [matchOrder_stop _ _ _ _ _ _ hstop]
      exact stop hw hstop
    obtain ⟨os, ls, hl⟩ := hfront.first
    have hn : (pl.order :: os).map Resting.id |>.Nodup :=
      hw.queue_nodup (l := ⟨pl.price, pl.order :: os⟩) (by rw [hl]; exact List.mem_cons_self)
    have hpl : (⟨opposite side, pl.price, pl.order⟩ : Place) = pl := by
      rw [← hfront.side]
    have hgone : ∀ c : Counters, (({ a with counters := c } : Book).remove pl).openOrders < a.openOrders := fun c =>
      remove_openOrders (hw.setCounters c) hfront.mem
    rw [matchOrder_step aggressor actor hl hn hfront.qty hfront.reach, hpl]
    by_cases hp : prevents a.stp actor pl.order.participant = true
    · rw [if_pos hp]
      cases hstp : a.stp with
      | none => simp [prevents, hstp] at hp
      | cancelAggressor => simpa only [hstp] using killAggressor hw hfront hstp hp
      | cancelBoth => simpa only [hstp] using killBoth hw hfront hstp hp
      | cancelResting =>
        have hnext := ih _ (hgone (a.counters.prevent.cancel pl.order.qty))
          ((hw.setCounters a.counters.prevent).cancelOpen pl) qty rfl
        simpa only [hstp] using killResting hw hfront hstp hp hnext
    · rw [if_neg hp]
      by_cases hlt : qty < pl.order.qty
      · rw [if_pos hlt]
        exact part hw hfront (Bool.eq_false_iff.mpr hp) hlt
      · rw [if_neg hlt]
        exact whole hw hfront (Bool.eq_false_iff.mpr hp) hlt
          (ih _ (hgone _) ((hw.setCounters _).remove pl) (qty - pl.order.qty) rfl)

end Book

end Spec

end Pricetime
