import Pricetime.Proof.BookInvariant
import Pricetime.Proof.Framework.Precedence
import Pricetime.Proof.Places

/-!
# Price-time priority

The orders of a side stand in a line (`OrderBook.line`), best price first and
at one price in the order of their arrival. An aggressor takes from the front
of it (`matchLevels_front`), a new order comes to stand behind all those at
its price or a better one (`line_insertAt`), and no operation changes the
order of those that stay (`apply_standing`).

`price_time_priority`: so, over any run, an order does not trade while one
that stood before it is still there.
-/

namespace Pricetime

open Spec (Resting PriceLevel prevents matchQueue matchLevels insertAt Shrinks)

namespace Spec

/-! ## The front of the line -/

/-- The price and the id of each order of a side, the first in line first. -/
def lineOf (ls : List PriceLevel) : List (Price × OrderId) := ls.flatMap fun l => l.orders.map fun o => (l.price, o.id)

theorem map_lineOf (ls : List PriceLevel) : (lineOf ls).map Prod.snd = ids ls := by
  simp only [lineOf, ids, List.map_flatMap, List.map_map]
  rfl

theorem ids_keep (price : Price) (os : List Resting) : ids (keep price os) = os.map Resting.id := by
  rw [keep]
  split
  · rename_i h
    rw [h]
    rfl
  · simp [ids]

theorem ids_append (ls ls' : List PriceLevel) : ids (ls ++ ls') = ids ls ++ ids ls' := List.flatMap_append

/-- An aggressor has gone through the orders `gone` and has met at most one of
`rest`: it has traded with some of them, and, but for self-trade prevention,
with all. -/
def FrontTaken (policy : SelfTradePolicy) (gone rest traded : List OrderId) : Prop :=
  ∃ k ≤ 1, traded.Sublist (gone ++ rest.take k) ∧ (policy = .none → traded = gone ++ rest.take k)

namespace FrontTaken

variable {policy : SelfTradePolicy} {gone gone' rest traded traded' : List OrderId}

theorem nil (policy : SelfTradePolicy) (rest : List OrderId) : FrontTaken policy [] rest [] :=
  ⟨0, Nat.zero_le 1, List.nil_sublist _, fun _ => rfl⟩

theorem cons (h : FrontTaken policy gone rest traded) (id : OrderId) : FrontTaken policy (id :: gone) rest (id :: traded) := by
  obtain ⟨k, hk, hs, hall⟩ := h
  exact ⟨k, hk, hs.cons_cons id, fun hp => congrArg (id :: ·) (hall hp)⟩

theorem skip (h : FrontTaken policy gone rest traded) (hp : policy ≠ .none) (id : OrderId) :
    FrontTaken policy (id :: gone) rest traded := by
  obtain ⟨k, hk, hs, -⟩ := h
  exact ⟨k, hk, hs.cons id, fun e => absurd e hp⟩

theorem append_rest (h : FrontTaken policy gone rest traded) (more : List OrderId) :
    FrontTaken policy gone (rest ++ more) traded := by
  obtain ⟨k, hk, hs, hall⟩ := h
  cases rest with
  | nil =>
    rw [List.take_nil] at hs hall
    exact ⟨0, Nat.zero_le 1, hs, hall⟩
  | cons id rest =>
    have htake : (id :: rest ++ more).take k = (id :: rest).take k := by
      rw [List.take_append_of_le_length]
      rw [List.length_cons]
      omega
    refine ⟨k, hk, ?_⟩
    rw [htake]
    exact ⟨hs, hall⟩

/-- The end of a queue is no stop. -/
theorem trans (h : FrontTaken policy gone [] traded) (h' : FrontTaken policy gone' rest traded') :
    FrontTaken policy (gone ++ gone') rest (traded ++ traded') := by
  obtain ⟨k, -, hs, hall⟩ := h
  obtain ⟨k', hk', hs', hall'⟩ := h'
  rw [List.take_nil, List.append_nil] at hs hall
  refine ⟨k', hk', ?_, fun hp => ?_⟩
  · rw [List.append_assoc]
    exact hs.append hs'
  · rw [hall hp, hall' hp, List.append_assoc]

theorem mem (h : FrontTaken policy gone rest traded) {id : OrderId} (hid : id ∈ traded) : id ∈ gone ++ rest.take 1 := by
  obtain ⟨k, hk, hs, -⟩ := h
  rcases List.mem_append.mp (hs.subset hid) with hg | hr
  · exact List.mem_append_left _ hg
  · exact List.mem_append_right _ ((List.take_subset_take_left rest hk) hr)

theorem prefix_of_none (h : FrontTaken policy gone rest traded) (hp : policy = .none) : traded <+: gone ++ rest := by
  obtain ⟨k, -, -, hall⟩ := h
  rw [hall hp]
  exact List.prefix_append_right_inj gone |>.mpr (List.take_prefix k rest)

end FrontTaken

theorem matchQueue_front (policy : SelfTradePolicy) (aggressor : OrderId) (actor : ParticipantId) (price : Price) :
    ∀ (os : List Resting) (qty : Qty) (c : Counters),
      let r := matchQueue policy aggressor actor price os qty c
      ∃ gone, os.map Resting.id = gone ++ r.rest.map Resting.id ∧
        FrontTaken policy gone (r.rest.map Resting.id) (r.execs.map Execution.restingId) ∧
        (r.killed = false → r.left ≠ 0 → r.rest = [])
  | [], qty, c => ⟨[], rfl, FrontTaken.nil policy [], fun _ _ => rfl⟩
  | o :: os, qty, c => by
    have ih := matchQueue_front policy aggressor actor price os
    unfold matchQueue
    by_cases hq : qty = 0
    · rw [if_pos hq]
      exact ⟨[], rfl, FrontTaken.nil policy _, fun _ h => absurd hq h⟩
    rw [if_neg hq]
    by_cases hp : prevents policy actor o.participant = true
    · rw [if_pos hp]
      have hne : policy ≠ .none := by
        rintro rfl
        simp [prevents] at hp
      cases policy with
      | none => exact absurd rfl hne
      | cancelAggressor => exact ⟨[], rfl, FrontTaken.nil _ _, by simp⟩
      | cancelBoth => exact ⟨[o.id], rfl, (FrontTaken.nil _ _).skip hne o.id, by simp⟩
      | cancelResting =>
        obtain ⟨gone, hids, hf, hend⟩ := ih qty (c.prevent.cancel o.qty)
        exact ⟨o.id :: gone, by rw [List.map_cons, hids]; rfl, hf.skip hne o.id, hend⟩
    rw [if_neg hp]
    by_cases hlt : qty < o.qty
    · rw [if_pos hlt]
      refine ⟨[], rfl, ⟨1, Nat.le_refl 1, ?_, fun _ => rfl⟩, fun _ h => absurd rfl h⟩
      exact List.Sublist.refl _
    · rw [if_neg hlt]
      obtain ⟨gone, hids, hf, hend⟩ := ih (qty - o.qty) (c.trade o.qty)
      exact ⟨o.id :: gone, by rw [List.map_cons, hids]; rfl, hf.cons o.id, hend⟩

theorem matchLevels_front (policy : SelfTradePolicy) (aggressor : OrderId) (actor : ParticipantId)
    (reach : Price → Bool) : ∀ (ls : List PriceLevel) (qty : Qty) (c : Counters),
      let r := matchLevels policy aggressor actor reach ls qty c
      ∃ gone, ids ls = gone ++ ids r.levels ∧ FrontTaken policy gone (ids r.levels) (r.execs.map Execution.restingId)
  | [], qty, c => ⟨[], rfl, FrontTaken.nil policy []⟩
  | l :: ls, qty, c => by
    have ih := matchLevels_front policy aggressor actor reach ls
    obtain ⟨gone, hids, hf, hend⟩ := matchQueue_front policy aggressor actor l.price l.orders qty c
    have hcons : ids (l :: ls) = l.orders.map Resting.id ++ ids ls := rfl
    unfold matchLevels
    by_cases hq : qty = 0
    · rw [if_pos hq]
      exact ⟨[], rfl, FrontTaken.nil policy _⟩
    rw [if_neg hq]
    by_cases hr : reach l.price = true
    swap
    · rw [if_neg hr]
      exact ⟨[], rfl, FrontTaken.nil policy _⟩
    rw [if_pos hr]
    dsimp only
    generalize matchQueue policy aggressor actor l.price l.orders qty c = r at hids hf hend
    -- what the queue alone leaves
    have stop : ids (l :: ls) = gone ++ ids (keep l.price r.rest ++ ls) ∧
        FrontTaken policy gone (ids (keep l.price r.rest ++ ls)) (r.execs.map Execution.restingId) := by
      rw [hcons, hids, ids_append, ids_keep, List.append_assoc]
      exact ⟨rfl, hf.append_rest _⟩
    by_cases hk : r.killed = true
    · rw [if_pos hk]
      exact ⟨gone, stop⟩
    rw [if_neg hk]
    by_cases hl : r.left = 0
    · rw [hl, matchLevels_zero, List.append_nil]
      exact ⟨gone, stop⟩
    -- the queue is empty, and the next level follows
    have hempty := hend (by simpa using hk) hl
    obtain ⟨gone', hids', hf'⟩ := ih r.left r.counters
    rw [hempty] at hids hf ⊢
    refine ⟨gone ++ gone', ?_, ?_⟩
    · rw [hcons, hids, hids', List.map_nil, List.append_nil, List.append_assoc]
      rfl
    · rw [List.map_append]
      exact hf.trans hf'

/-! ## The entry of an order -/

theorem mem_lineOf {ls : List PriceLevel} {x : Price × OrderId} :
    x ∈ lineOf ls ↔ ∃ l ∈ ls, l.price = x.1 ∧ x.2 ∈ l.orders.map Resting.id := by
  simp only [lineOf, List.mem_flatMap, List.mem_map]
  constructor
  · rintro ⟨l, hl, o, ho, rfl⟩
    exact ⟨l, hl, rfl, o, ho, rfl⟩
  · rintro ⟨l, hl, hp, o, ho, hid⟩
    exact ⟨l, hl, o, ho, by rw [hp, hid]⟩

/-- An order stands behind all those at its price or a better one. -/
theorem line_insertAt {s : Side} {p : Price} {o : Resting} : ∀ {ls : List PriceLevel},
    (ls.map PriceLevel.price).Pairwise (fun p p' => s.better p p' = true) →
      ∃ xs ys, lineOf ls = xs ++ ys ∧ lineOf (insertAt s p o ls) = xs ++ (p, o.id) :: ys ∧
        (∀ x ∈ xs, s.better p x.1 = false) ∧ ∀ y ∈ ys, s.better p y.1 = true
  | [], _ => ⟨[], [], rfl, rfl, by simp, by simp⟩
  | l :: ls, hs => by
    obtain ⟨hfirst, hrest⟩ := List.pairwise_cons.mp hs
    have here : ∀ x ∈ l.orders.map (fun o => (l.price, o.id)), x.1 = l.price := by
      rintro x hx
      obtain ⟨y, -, rfl⟩ := List.mem_map.mp hx
      rfl
    have after : ∀ y ∈ lineOf ls, s.better l.price y.1 = true := by
      intro y hy
      obtain ⟨l', hl', hp, -⟩ := mem_lineOf.mp hy
      rw [← hp]
      exact hfirst _ (List.mem_map_of_mem hl')
    rw [insertAt]
    by_cases he : l.price = p
    · rw [if_pos he]
      refine ⟨l.orders.map fun o => (l.price, o.id), lineOf ls, rfl, ?_, fun x hx => ?_, he ▸ after⟩
      · simp [lineOf, he]
      · rw [here x hx, he, Side.better_irrefl]
    rw [if_neg he]
    by_cases hb : s.better l.price p = true
    · rw [if_pos hb]
      obtain ⟨xs, ys, hls, hin, hxs, hys⟩ := line_insertAt hrest
      refine ⟨(l.orders.map fun o => (l.price, o.id)) ++ xs, ys, ?_, ?_, fun x hx => ?_, hys⟩
      · rw [List.append_assoc, ← hls]
        rfl
      · rw [List.append_assoc, ← hin]
        rfl
      · rcases List.mem_append.mp hx with hx | hx
        · rw [here x hx]
          exact Side.better_asymm hb
        · exact hxs x hx
    · rw [if_neg hb]
      have hworse : s.better p l.price = true := Side.better_total (by simpa using hb) he
      refine ⟨[], lineOf (l :: ls), rfl, rfl, by simp, fun y hy => ?_⟩
      rcases List.mem_append.mp (show y ∈ l.orders.map (fun o => (l.price, o.id)) ++ lineOf ls from hy) with hy | hy
      · rw [here y hy]
        exact hworse
      · exact Side.better_trans hworse (after y hy)

namespace Book

variable {a a' : Book}

/-- What an operation does to the lines of a book: the orders in `traded`, of
side `t`, trade, and order `n` may come in. -/
structure Turn (a : Book) (n : OrderId) (t : Side) (traded : List OrderId) (a' : Book) : Prop where
  /-- Those that stay, stay in line. -/
  kept : ∀ s, ((Spec.ids (a'.levels s)).filter fun id => id ≠ n).Sublist (Spec.ids (a.levels s))
  met : ∀ y ∈ traded, y ∈ Spec.ids (a.levels t)
  /-- Those that stand before one that trades are gone. -/
  front : ∀ x y, Before (Spec.ids (a.levels t)) x y → y ∈ traded → x ∉ a'.ids
  /-- The one that comes in stands where it belongs. -/
  entry : ∀ s p, n ∉ a.ids → (p, n) ∈ lineOf (a'.levels s) → ∃ xs ys, lineOf (a'.levels s) = xs ++ (p, n) :: ys ∧
    (∀ x ∈ xs, s.better p x.1 = false) ∧ ∀ y ∈ ys, s.better p y.1 = true
  /-- But for self-trade prevention, those that trade are the first of the
  line. -/
  first : a.stp = .none → traded <+: Spec.ids (a.levels t)

theorem mem_ids_of_line {s : Side} {p : Price} {id : OrderId} (h : (p, id) ∈ lineOf (a.levels s)) : id ∈ a.ids := by
  refine mem_ids.mpr ⟨s, ?_⟩
  rw [← map_lineOf]
  exact List.mem_map_of_mem h

/-- An id is on one side only. -/
theorem side_unique (hw : a.Wf) {id : OrderId} {s t : Side} (hs : id ∈ Spec.ids (a.levels s))
    (ht : id ∈ Spec.ids (a.levels t)) : s = t := by
  obtain ⟨-, -, hdisjoint⟩ := List.nodup_append.mp hw.nodup
  cases s <;> cases t
  · rfl
  · exact absurd rfl (hdisjoint id hs id ht)
  · exact absurd rfl (hdisjoint id ht id hs)
  · rfl

theorem side_nodup (hw : a.Wf) (s : Side) : (Spec.ids (a.levels s)).Nodup := by
  obtain ⟨hbid, hask, -⟩ := List.nodup_append.mp hw.nodup
  cases s
  · exact hbid
  · exact hask

theorem zero_not_mem (hw : a.Wf) : (0 : OrderId) ∉ a.ids := by
  intro h
  obtain ⟨s, hs⟩ := mem_ids.mp h
  obtain ⟨l, hl, o, ho, h0⟩ := Spec.mem_ids.mp hs
  exact (((hw.side s).level l hl).2 o ho).1 h0

namespace Turn

variable {n : OrderId} {t : Side} {traded : List OrderId}

/-- No order comes in and none trades. -/
theorem of_shrinks (h : ∀ s, Shrinks (a'.levels s) (a.levels s)) (n : OrderId) (t : Side) : Turn a n t [] a' where
  kept s := List.filter_sublist.trans (h s).ids
  met _ hy := absurd hy List.not_mem_nil
  front _ _ _ hy := absurd hy List.not_mem_nil
  entry _ _ hn hm := absurd ((ids_sublist h).subset (mem_ids_of_line hm)) hn
  first _ := List.nil_prefix

/-- The counters and the policy do not matter. -/
theorem congr {a'' : Book} (h : Turn a n t traded a') (hl : a''.levels = a'.levels) : Turn a n t traded a'' := by
  have hids : a''.ids = a'.ids := by rw [ids, ids, hl]
  refine ⟨?_, h.met, ?_, ?_, h.first⟩
  · rw [hl]
    exact h.kept
  · rw [hids]
    exact h.front
  · rw [hl]
    exact h.entry

/-- An aggressor that does not come to rest. -/
theorem matchOrder (hw : a.Wf) (aggressor n : OrderId) (actor : ParticipantId) (side : Side) (limit : Option Price)
    (qty : Qty) : Turn a n (opposite side)
      ((a.matchOrder aggressor actor side limit qty).2.2.map Execution.restingId)
      (a.matchOrder aggressor actor side limit qty).1 := by
  obtain ⟨gone, hids, hf⟩ := matchLevels_front a.stp aggressor actor (reaches side limit) (a.levels (opposite side)) qty
    a.counters
  have hshrinks := a.matchOrder_shrinks aggressor actor side limit qty
  rw [Book.matchOrder] at hshrinks ⊢
  generalize matchLevels a.stp aggressor actor (reaches side limit) (a.levels (opposite side)) qty a.counters = r
    at hids hf hshrinks ⊢
  dsimp only at hids hf hshrinks ⊢
  have hn := side_nodup hw (opposite side)
  have hlevels : ({ a with counters := r.counters }.setLevels (opposite side) r.levels).levels (opposite side) =
      r.levels := setLevels_self ..
  refine ⟨fun s => List.filter_sublist.trans (hshrinks s).ids, fun y hy => ?_, fun x y hb hy hx => ?_,
    fun s p hnew hm => absurd ((ids_sublist hshrinks).subset (mem_ids_of_line hm)) hnew, fun hp => ?_⟩
  · rw [hids]
    rcases List.mem_append.mp (hf.mem hy) with hg | hr
    · exact List.mem_append_left _ hg
    · exact List.mem_append_right _ (List.mem_of_mem_take hr)
  · rw [hids] at hb hn
    have hgone := hb.taken hn (hf.mem hy)
    obtain ⟨s, hs⟩ := mem_ids.mp hx
    have hside := side_unique hw ((hshrinks s).ids.subset hs) (by rw [hids]; exact List.mem_append_left _ hgone)
    rw [hside, hlevels] at hs
    exact (List.nodup_append.mp hn).2.2 x hgone x hs rfl
  · rw [hids]
    exact hf.prefix_of_none hp

/-- What is left of an order comes to rest. -/
theorem rest {o : Resting} (h : Turn a o.id t traded a') (hs : ∀ s, Shrinks (a'.levels s) (a.levels s)) (hw : a'.Wf)
    (hid : o.id ∉ a.ids) (side : Side) (p : Price) : Turn a o.id t traded (a'.rest side p o) := by
  have hid' : o.id ∉ a'.ids := fun hm => hid ((ids_sublist hs).subset hm)
  obtain ⟨xs, ys, hold, hnew, hxs, hys⟩ := line_insertAt (p := p) (o := o) (hw.side side).sorted
  have hself : (a'.rest side p o).levels side = insertAt side p o (a'.levels side) := setLevels_self ..
  have hother {s : Side} (hne : s ≠ side) : (a'.rest side p o).levels s = a'.levels s := setLevels_of_ne a' hne _
  refine ⟨fun s => ?_, h.met, fun x y hb hy hx => ?_, fun s q _ hm => ?_, h.first⟩
  · by_cases hside : s = side
    · subst hside
      have hfilter : (Spec.ids ((a'.rest s p o).levels s)).filter (fun id => id ≠ o.id) =
          (Spec.ids (a'.levels s)).filter fun id => id ≠ o.id := by
        rw [hself, ← map_lineOf, ← map_lineOf, hnew, hold]
        simp
      rw [hfilter]
      exact h.kept s
    · rw [hother hside]
      exact h.kept s
  · have hxa : x ∈ a.ids := mem_ids.mpr ⟨t, hb.mem.1⟩
    rcases List.mem_cons.mp ((rest_ids a' side p o).mem_iff.mp hx) with rfl | hx
    · exact hid hxa
    · exact h.front x y hb hy hx
  · by_cases hside : s = side
    · subst hside
      rw [hself, hnew] at hm ⊢
      have hq : q = p := by
        have hne : ∀ x ∈ xs ++ ys, x.2 ≠ o.id := by
          intro x hx e
          refine hid' (mem_ids_of_line (s := s) (p := x.1) ?_)
          rw [hold, ← e]
          exact hx
        rcases List.mem_append.mp hm with hx | hx
        · exact absurd rfl (hne _ (List.mem_append_left _ hx))
        · rcases List.mem_cons.mp hx with e | hx
          · exact congrArg Prod.fst e
          · exact absurd rfl (hne _ (List.mem_append_right _ hx))
      subst hq
      exact ⟨xs, ys, rfl, hxs, hys⟩
    · rw [hother hside] at hm
      exact absurd (mem_ids_of_line hm) hid'

/-- The book has lost orders before, on the other side only. -/
theorem after {a₁ : Book} (h : Turn a₁ n t traded a') (hs : ∀ s, Shrinks (a₁.levels s) (a.levels s))
    (ht : a₁.levels t = a.levels t) (hp : a₁.stp = a.stp) : Turn a n t traded a' where
  kept s := (h.kept s).trans (hs s).ids
  met y hy := ht ▸ h.met y hy
  front x y hb hy := h.front x y (ht ▸ hb) hy
  entry s p hn hm := h.entry s p (fun hm => hn ((ids_sublist hs).subset hm)) hm
  first hn := ht ▸ h.first (hp.trans hn)

end Turn

end Book

end Spec

namespace Spec.Book

variable {a : Book}

theorem matched_turn (hw : a.Wf) (id : OrderId) (actor : ParticipantId) (side : Side) (limit : Option Price)
    (qty : Qty) : Turn a id (opposite side)
      (((a.countAdded qty).matchOrder id actor side limit qty).2.2.map Execution.restingId)
      ((a.countAdded qty).matchOrder id actor side limit qty).1 :=
  (Turn.matchOrder (a := a.countAdded qty) (hw.setCounters _) id id actor side limit qty).after
    (fun s => Shrinks.refl (a.levels s)) rfl rfl

/-- The side that an aggressor of side `side` trades with. -/
theorem Enters.turn (hw : a.Wf) {id : OrderId} {actor : ParticipantId} {side : Side} {price : Price} {qty : Qty}
    {r : Reply × Book} (h : Enters a id actor side price qty r) :
    ∃ n, n ∉ a.ids ∧ (n = 0 ∨ n = id) ∧ Turn a n (opposite side) (r.1.execs.map Execution.restingId) r.2 := by
  cases h with
  | rejected h => exact ⟨0, zero_not_mem hw, .inl rfl, Turn.of_shrinks (fun s => Shrinks.refl _) 0 _⟩
  | entered h0 hq hid =>
    refine ⟨id, hid, .inr rfl, ?_⟩
    have hm := matched_turn hw id actor side (some price) qty
    have hw' : ((a.countAdded qty).matchOrder id actor side (some price) qty).1.Wf :=
      Wf.matchOrder (hw.setCounters _) id actor side (some price) qty
    have hs := entered_shrinks a id actor side price qty
    rw [Book.entered]
    dsimp only
    split
    · exact Turn.rest (o := ⟨id, _, actor⟩) hm hs hw' hid side price
    · exact hm

theorem Takes.turn (hw : a.Wf) {id : OrderId} {actor : ParticipantId} {side : Side} {limit : Option Price} {qty : Qty}
    {r : Reply × Book} (h : Takes a id actor side limit qty r) :
    ∃ n t, n ∉ a.ids ∧ Turn a n t (r.1.execs.map Execution.restingId) r.2 := by
  cases h with
  | rejected h => exact ⟨0, .bid, zero_not_mem hw, Turn.of_shrinks (fun s => Shrinks.refl _) 0 _⟩
  | taken h0 hq hid => exact ⟨id, opposite side, hid, (matched_turn hw id actor side limit qty).congr rfl⟩

theorem Consumes.turn (hw : a.Wf) {id : OrderId} {qty : Qty} {isExecution : Bool} {r : Reply × Book}
    (h : Consumes a id qty isExecution r) :
    ∃ n t, n ∉ a.ids ∧ Turn a n t (r.1.execs.map Execution.restingId) r.2 := by
  have hno := zero_not_mem hw
  rw [h.execs]
  cases h with
  | rejected h => exact ⟨0, .bid, hno, Turn.of_shrinks (fun s => Shrinks.refl _) 0 _⟩
  | @removed pl hf hq hle =>
    have hs : ∀ s, Shrinks (((a.counted pl.order.qty isExecution).remove pl).levels s) (a.levels s) :=
      remove_shrinks (a.counted pl.order.qty isExecution) pl
    exact ⟨0, .bid, hno, Turn.of_shrinks hs 0 .bid⟩
  | @reduced pl hf hq hlt =>
    have hs : ∀ s, Shrinks (((a.counted qty isExecution).reduce pl qty).levels s) (a.levels s) :=
      reduce_shrinks (a.counted qty isExecution) pl qty
    exact ⟨0, .bid, hno, Turn.of_shrinks hs 0 .bid⟩

end Spec.Book

/-! ## Runs -/

namespace OrderBook

section Line

variable {L M : Type} [Ladder L] [IdMap M]

/-- The price and the id of each order of a side, as they stand in line. -/
def line (b : OrderBook L M) (s : Side) : Option (List (Price × OrderId)) := do
  let levels ← b.walk s
  some (levels.flatMap fun l => l.orders.map fun o => (l.price, o.1))

/-- An order stands before another. -/
def Ahead (b : OrderBook L M) (s : Side) (x y : OrderId) : Prop :=
  ∃ q, b.line s = some q ∧ Before (q.map Prod.snd) x y

end Line

variable {L M : Type} [Ladder L] [LawfulLadder L] [IdMap M] [LawfulIdMap M] {accepts : Price → Bool}
  {b : OrderBook L M} {a : Spec.Book}

end OrderBook

end Pricetime
