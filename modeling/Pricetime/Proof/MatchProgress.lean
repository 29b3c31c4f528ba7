import Pricetime.Proof.Conservation
import Pricetime.Proof.FillOrKill

/-!
# Matching makes progress

What one call of `match` reports, in every book a run reaches, crossed books
and all policies included: it ends, each execution takes shares off an order
that no other execution of the call takes from, prices get worse for the
aggressor and stay within its limit (`Matched`), and the shares that were
entered are traded, handed back, or killed by self-trade prevention
(`Accounted`).
-/

namespace Pricetime

open Spec (Resting PriceLevel matchQueue matchLevels prevents traded traded_append totalQty sideQty)

/-- The executions of a call of `match`. -/
structure Matched (side : Side) (limit : Option Price) (execs : List Execution) : Prop where
  filled : ∀ x ∈ execs, 0 < x.qty
  within : ∀ x ∈ execs, reaches side limit x.price = true
  once : (execs.map Execution.restingId).Nodup
  worsens : execs.Pairwise fun x y => (opposite side).better y.price x.price = false

/-- Where the shares that an aggressor entered went. `killed` is what
self-trade prevention took of the aggressor, `removed` what it took of resting
orders; both are in the canceled quantity. -/
structure Accounted (policy : SelfTradePolicy) (actor : ParticipantId) (qty left killed : Qty) (removed : UInt64)
    (execs : List Execution) (c c' : Counters) : Prop where
  shares : traded execs + left.toNat + killed.toNat = qty.toNat
  trades : c'.tradedQty = c.tradedQty + UInt64.ofNat (traded execs)
  cancels : c'.canceledQty = c.canceledQty + killed.toUInt64 + removed
  kills : killed ≠ 0 → actor ≠ 0 ∧ (policy = .cancelAggressor ∨ policy = .cancelBoth) ∧ left = 0

theorem Accounted.refl (policy : SelfTradePolicy) (actor : ParticipantId) (qty : Qty) (c : Counters) :
    Accounted policy actor qty qty 0 0 [] c c where
  shares := by simp [traded]
  trades := by simp [traded]
  cancels := by simp
  kills h := absurd rfl h

namespace Spec

/-! ## One queue -/

/-- The executions of a queue at a price. -/
structure Swept (price : Price) (os : List Resting) (execs : List Execution) : Prop where
  price : ∀ x ∈ execs, x.price = price
  filled : ∀ x ∈ execs, 0 < x.qty
  orders : (execs.map Execution.restingId).Sublist (os.map Resting.id)

namespace Swept

variable {price : Price} {os : List Resting} {execs : List Execution}

theorem nil (price : Price) (os : List Resting) : Swept price os [] := ⟨nofun, nofun, List.nil_sublist _⟩

/-- An order passed over. -/
theorem skip (h : Swept price os execs) (o : Resting) : Swept price (o :: os) execs :=
  ⟨h.price, h.filled, h.orders.cons _⟩

theorem cons (h : Swept price os execs) (o : Resting) (aggressor : OrderId) {fill : Qty} (hf : fill ≠ 0) :
    Swept price (o :: os) (⟨o.id, aggressor, price, fill⟩ :: execs) where
  price x hx := by
    rcases List.mem_cons.mp hx with rfl | hx
    · rfl
    · exact h.price x hx
  filled x hx := by
    rcases List.mem_cons.mp hx with rfl | hx
    · exact UInt32.pos_iff_ne_zero.mpr hf
    · exact h.filled x hx
  orders := h.orders.cons_cons _

end Swept

theorem matchQueue_swept (policy : SelfTradePolicy) (aggressor : OrderId) (actor : ParticipantId)
    (price : Price) : ∀ (os : List Resting) (qty : Qty) (c : Counters), (∀ o ∈ os, o.Ok) →
      Swept price os (matchQueue policy aggressor actor price os qty c).execs
  | [], _, _, _ => Swept.nil ..
  | o :: os, qty, c, h => by
    have ih := fun qty c => matchQueue_swept policy aggressor actor price os qty c
      fun y hy => h y (List.mem_cons_of_mem _ hy)
    unfold matchQueue
    split
    · exact Swept.nil ..
    · rename_i h0
      split
      · split
        · exact Swept.nil ..
        · exact Swept.nil ..
        · exact (ih _ _).skip o
      · split
        · exact (Swept.nil ..).cons o aggressor h0
        · exact (ih _ _).cons o aggressor (h o List.mem_cons_self).2

/-- What an aggressor that is killed in a queue had left is what is killed of
it. -/
def QueueMatch.killedQty (r : QueueMatch) : Qty := if r.killed then r.left else 0

theorem matchQueue_accounted (policy : SelfTradePolicy) (aggressor : OrderId) (actor : ParticipantId)
    (price : Price) : ∀ (os : List Resting) (qty : Qty) (c : Counters) {r : QueueMatch},
      matchQueue policy aggressor actor price os qty c = r →
      ∃ removed : UInt64,
        r.counters.tradedQty = c.tradedQty + UInt64.ofNat (traded r.execs) ∧
        r.counters.canceledQty = c.canceledQty + r.killedQty.toUInt64 + removed ∧
        totalQty os = totalQty r.rest + UInt64.ofNat (traded r.execs) + removed ∧
        (r.killed = true → actor ≠ 0 ∧ (policy = .cancelAggressor ∨ policy = .cancelBoth))
  | [], qty, c, _, rfl => ⟨0, by simp [matchQueue, traded, QueueMatch.killedQty]⟩
  | o :: os, qty, c, r, h => by
    have ih := fun qty c => matchQueue_accounted policy aggressor actor price os qty c rfl
    have hcast : ∀ q : Qty, UInt64.ofNat q.toNat = q.toUInt64 := fun q => UInt64.ofNat_uInt32ToNat q
    unfold matchQueue at h
    split at h
    · subst h
      exact ⟨0, by simp [traded, QueueMatch.killedQty]⟩
    · split at h
      · rename_i hp
        have hactor : actor ≠ 0 := by
          simp only [prevents, Bool.and_eq_true, decide_eq_true_eq] at hp
          exact hp.1.1
        split at h
        · subst h
          refine ⟨0, ?_, ?_, ?_, fun _ => ⟨hactor, .inl rfl⟩⟩
          · simp [traded, Counters.cancel, Counters.prevent]
          · simp [QueueMatch.killedQty, Counters.cancel, Counters.prevent]
          · simp [traded]
        · subst h
          refine ⟨o.qty.toUInt64, ?_, ?_, ?_, fun _ => ⟨hactor, .inr rfl⟩⟩
          · simp [traded, Counters.cancel, Counters.prevent]
          · simp only [QueueMatch.killedQty, Counters.cancel, Counters.prevent, if_true]
            grind
          · simp only [traded, totalQty, List.map_nil, List.sum_nil]
            grind
        · subst h
          obtain ⟨removed, htraded, hcanceled, hopen, hkill⟩ := ih qty (c.prevent.cancel o.qty)
          refine ⟨o.qty.toUInt64 + removed, htraded, hcanceled.trans ?_, ?_, hkill⟩
          · simp only [Counters.cancel, Counters.prevent]
            grind
          · rw [totalQty, hopen]
            grind
      · split at h
        · rename_i hlt
          subst h
          have hsub := OrderBook.Rep.toUInt64_sub (UInt32.le_of_lt hlt)
          refine ⟨0, ?_, ?_, ?_, by simp⟩
          · simp [traded, Counters.trade, hcast]
          · simp [QueueMatch.killedQty, Counters.trade]
          · simp only [traded, totalQty, hsub, List.map_cons, List.map_nil, List.sum_cons, List.sum_nil,
              Nat.add_zero, hcast]
            grind
        · rename_i hge
          subst h
          obtain ⟨removed, htraded, hcanceled, hopen, hkill⟩ := ih (qty - o.qty) (c.trade o.qty)
          refine ⟨removed, htraded.trans ?_, hcanceled, ?_, hkill⟩
          · simp only [FeedOrder.traded_cons, UInt64.ofNat_add, hcast, Counters.trade]
            grind
          · simp only [totalQty, hopen, FeedOrder.traded_cons, UInt64.ofNat_add, hcast]
            grind

/-! ## One side -/

/-- The executions of a list of levels that an aggressor reaches. -/
structure SweptSide (side : Side) (limit : Option Price) (ls : List PriceLevel) (execs : List Execution) : Prop where
  level : ∀ x ∈ execs, ∃ l ∈ ls, l.price = x.price
  filled : ∀ x ∈ execs, 0 < x.qty
  within : ∀ x ∈ execs, reaches side limit x.price = true
  orders : (execs.map Execution.restingId).Sublist (ids ls)
  worsens : execs.Pairwise fun x y => (opposite side).better y.price x.price = false

namespace SweptSide

variable {side : Side} {limit : Option Price} {l : PriceLevel} {ls : List PriceLevel} {execs more : List Execution}

theorem nil (side : Side) (limit : Option Price) (ls : List PriceLevel) : SweptSide side limit ls [] :=
  ⟨nofun, nofun, nofun, List.nil_sublist _, List.Pairwise.nil⟩

/-- A queue before levels that are worse. -/
theorem cons (hq : Swept l.price l.orders execs) (hr : reaches side limit l.price = true)
    (hw : ∀ p ∈ ls.map PriceLevel.price, (opposite side).better l.price p = true)
    (h : SweptSide side limit ls more) : SweptSide side limit (l :: ls) (execs ++ more) where
  level x hx := by
    rcases List.mem_append.mp hx with hx | hx
    · exact ⟨l, List.mem_cons_self, (hq.price x hx).symm⟩
    · obtain ⟨l', hl', e⟩ := h.level x hx
      exact ⟨l', List.mem_cons_of_mem _ hl', e⟩
  filled x hx := (List.mem_append.mp hx).elim (hq.filled x) (h.filled x)
  within x hx := by
    rcases List.mem_append.mp hx with hx | hx
    · rw [hq.price x hx]
      exact hr
    · exact h.within x hx
  orders := by
    rw [List.map_append]
    exact hq.orders.append h.orders
  worsens := by
    refine List.pairwise_append.mpr ⟨?_, h.worsens, fun x hx y hy => ?_⟩
    · refine List.Pairwise.imp_of_mem (fun {x y} hx hy _ => ?_) (List.pairwise_of_forall fun _ _ => trivial)
      rw [hq.price x hx, hq.price y hy]
      exact Side.better_irrefl ..
    · obtain ⟨l', hl', e⟩ := h.level y hy
      rw [hq.price x hx, ← e]
      exact Side.better_asymm (hw _ (List.mem_map_of_mem hl'))

end SweptSide

theorem matchLevels_swept (side : Side) (limit : Option Price) (policy : SelfTradePolicy) (aggressor : OrderId)
    (actor : ParticipantId) : ∀ {ls : List PriceLevel} (qty : Qty) (c : Counters), SideWf (opposite side) ls →
      SweptSide side limit ls (matchLevels policy aggressor actor (reaches side limit) ls qty c).execs
  | [], _, _, _ => SweptSide.nil ..
  | l :: ls, qty, c, h => by
    obtain ⟨hworse, hsorted⟩ := List.pairwise_cons.mp h.sorted
    have ih := fun qty c => matchLevels_swept side limit policy aggressor actor qty c
      ⟨hsorted, fun x hx => h.level x (List.mem_cons_of_mem _ hx)⟩
    have hq := matchQueue_swept policy aggressor actor l.price l.orders qty c (h.level l List.mem_cons_self).2
    unfold matchLevels
    split
    · exact SweptSide.nil ..
    · split
      · rename_i hr
        dsimp only
        split
        · have := SweptSide.cons hq hr hworse (SweptSide.nil ..)
          rwa [List.append_nil] at this
        · exact SweptSide.cons hq hr hworse (ih _ _)
      · exact SweptSide.nil ..

theorem matchLevels_accounted (policy : SelfTradePolicy) (aggressor : OrderId) (actor : ParticipantId)
    (reach : Price → Bool) : ∀ (ls : List PriceLevel) (qty : Qty) (c : Counters) {r : SideMatch},
      matchLevels policy aggressor actor reach ls qty c = r →
      ∃ (killed : Qty) (removed : UInt64),
        Accounted policy actor qty r.left killed removed r.execs c r.counters ∧
        sideQty ls = sideQty r.levels + UInt64.ofNat (traded r.execs) + removed
  | [], qty, c, _, rfl => ⟨0, 0, Accounted.refl .., by simp [matchLevels, traded]⟩
  | l :: ls, qty, c, r, h => by
    have ih := fun qty c => matchLevels_accounted policy aggressor actor reach ls qty c rfl
    have hshares := (matchQueue_scanned policy aggressor actor l.price l.orders qty c).traded
    obtain ⟨removed, htraded, hcanceled, hopen, hkills⟩ :=
      matchQueue_accounted policy aggressor actor l.price l.orders qty c rfl
    unfold matchLevels at h
    split at h
    · subst h
      exact ⟨0, 0, Accounted.refl .., by simp [traded]⟩
    · split at h
      · dsimp only at h
        generalize matchQueue policy aggressor actor l.price l.orders qty c = q at h hshares htraded hcanceled hopen hkills
        split at h
        · rename_i hk
          subst h
          rw [QueueMatch.killedQty, if_pos hk] at hcanceled
          refine ⟨q.left, removed, ⟨?_, htraded, hcanceled, fun _ => ⟨(hkills hk).1, (hkills hk).2, rfl⟩⟩, ?_⟩
          · show traded q.execs + 0 + q.left.toNat = qty.toNat
            omega
          · rw [sideQty, hopen]
            simp only [sideQty_append, sideQty_keep]
            grind
        · rename_i hk
          subst h
          rw [QueueMatch.killedQty, if_neg hk] at hcanceled
          obtain ⟨killed, removed', ⟨hshares', htraded', hcanceled', hkills'⟩, hopen'⟩ := ih q.left q.counters
          refine ⟨killed, removed + removed', ⟨?_, ?_, ?_, hkills'⟩, ?_⟩
          · dsimp only
            rw [traded_append]
            omega
          · rw [htraded', htraded, traded_append, UInt64.ofNat_add, UInt64.add_assoc]
          · rw [hcanceled', hcanceled]
            show _ + (0 : UInt64) + _ + _ + _ = _
            grind
          · rw [sideQty, hopen, hopen', traded_append, UInt64.ofNat_add]
            simp only [sideQty_append, sideQty_keep]
            grind
      · subst h
        exact ⟨0, 0, Accounted.refl .., by simp [traded]⟩

namespace Book

variable {a : Book}

theorem matchOrder_matched (h : a.Wf) (aggressor : OrderId) (actor : ParticipantId) (side : Side)
    (limit : Option Price) (qty : Qty) : Matched side limit (a.matchOrder aggressor actor side limit qty).2.2 := by
  have hs := matchLevels_swept side limit a.stp aggressor actor qty a.counters (h.side (opposite side))
  have hids := List.nodup_append.mp h.nodup
  refine ⟨hs.filled, hs.within, List.Nodup.sublist hs.orders ?_, hs.worsens⟩
  cases side with
  | bid => exact hids.2.1
  | ask => exact hids.1

theorem matchOrder_accounted (a : Book) (aggressor : OrderId) (actor : ParticipantId) (side : Side)
    (limit : Option Price) (qty : Qty) {m : Book × Qty × List Execution}
    (h : a.matchOrder aggressor actor side limit qty = m) :
    ∃ (killed : Qty) (removed : UInt64),
      Accounted a.stp actor qty m.2.1 killed removed m.2.2 a.counters m.1.counters ∧
      a.openQty = m.1.openQty + UInt64.ofNat (traded m.2.2) + removed := by
  subst h
  obtain ⟨killed, removed, hacc, hopen⟩ := matchLevels_accounted a.stp aggressor actor (reaches side limit)
    (a.levels (opposite side)) qty a.counters rfl
  refine ⟨killed, removed, hacc, ?_⟩
  rw [matchOrder]
  generalize matchLevels a.stp aggressor actor (reaches side limit) (a.levels (opposite side)) qty a.counters = r at hopen ⊢
  have hset := openQty_setLevels { a with counters := r.counters } (opposite side) r.levels
  have hsame : openQty { a with counters := r.counters } = a.openQty := rfl
  simp only at hset ⊢
  grind

end Book

end Spec

namespace OrderBook

variable {L M : Type} [Ladder L] [LawfulLadder L] [IdMap M] [LawfulIdMap M]

/-- In every book that a run reaches, and for every aggressor, `match` ends,
and what it reports is sound. -/
theorem match_progresses {ladder : L} (hv : Vacant ladder) {b₀ : OrderBook L M} (h₀ : new ladder = some b₀)
    (ops : List Op) (hfew : Runs.Along apply Few b₀ ops) :
    ∃ b, Runs.run apply b₀ ops = some b ∧
      ∀ (counters : Counters) (aggressor : OrderId) (actor : ParticipantId) (side : Side) (limit : Option Price)
        (qty : Qty), ∃ b' left execs,
        ({ b with counters } : OrderBook L M).matchOrder aggressor actor side limit qty = some (b', left, execs) ∧
        Matched side limit execs ∧
        ∃ (killed : Qty) (removed before after : UInt64),
          Accounted b.stp actor qty left killed removed execs counters b'.counters ∧
          b.openQty = some before ∧ b'.openQty = some after ∧
          before = after + UInt64.ofNat (traded execs) + removed := by
  obtain ⟨b, hb, hsim⟩ := new_sim (M := M) hv
  cases h₀.symm.trans hb
  obtain ⟨b, a, hb, ha, h, hat⟩ := run_sim Sim.within_of_few hsim ops hfew
  refine ⟨b, hb, fun counters aggressor actor side limit qty => ?_⟩
  have hw := h.within_of_few hat
  have hw' : Within L { a with counters } := hw.shrinks fun s => Spec.Shrinks.refl (a.levels s)
  have hwf : Spec.Book.Wf { a with counters } := (spec_wf ha).setCounters counters
  obtain ⟨b', hb', hsim'⟩ := (h.setCounters fun _ => counters).matchOrder hw' aggressor actor side limit qty
  obtain ⟨killed, removed, hacc, hopen⟩ :=
    Spec.Book.matchOrder_accounted { a with counters } aggressor actor side limit qty rfl
  have hafter := hsim'.openQty_eq (hw'.shrinks (Spec.Book.matchOrder_shrinks _ aggressor actor side limit qty))
  have hbefore := h.openQty_eq hw
  obtain ⟨_, _, hby⟩ := h
  obtain ⟨_, _, hby'⟩ := hsim'
  refine ⟨b', _, _, hb', Spec.Book.matchOrder_matched hwf aggressor actor side limit qty,
    killed, removed, _, _, ?_, hbefore, hafter, hopen⟩
  rw [← hby.stp, ← hby'.counters]
  exact hacc

/-- A bid that meets a rival's ask, an ask of its own, which kills it, and
another that it never meets. -/
theorem match_progresses_own : ∃ b₀ b : OrderBook MapLadder OpenAddressIdMap, new {} = some b₀ ∧
    Runs.run apply b₀ [.setSelfTradePolicy .cancelAggressor, .insertPassive 1 .bid 9 3, .addLimitAs 8 2 .ask 10 4,
      .addLimitAs 7 3 .ask 11 5, .addLimitAs 8 4 .ask 12 6] = some b ∧
    ∃ b' left execs, b.matchOrder 5 7 .bid (some 12) 10 = some (b', left, execs) ∧ Matched .bid (some 12) execs := by
  obtain ⟨b₀, h₀, hsim⟩ := new_sim (M := OpenAddressIdMap) MapLadder.vacant
  obtain ⟨b, hb, hmatch⟩ := match_progresses MapLadder.vacant h₀ [.setSelfTradePolicy .cancelAggressor,
    .insertPassive 1 .bid 9 3, .addLimitAs 8 2 .ask 10 4, .addLimitAs 7 3 .ask 11 5, .addLimitAs 8 4 .ask 12 6]
    (along_few hsim _ (by decide))
  obtain ⟨b', left, execs, hb', hm, -⟩ := hmatch b.counters 5 7 .bid (some 12) 10
  exact ⟨b₀, b, h₀, hb, b', left, execs, hb', hm⟩

end OrderBook

end Pricetime
