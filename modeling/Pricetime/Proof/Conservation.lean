import Pricetime.Proof.BookInvariant
import Pricetime.Proof.ItchWriter
import Pricetime.Proof.ReplayerRefines

/-!
# Share conservation

Every share that enters a book is traded (which takes one off each side),
executed, cancelled, or still rests. `Spec.Book.Balanced` says so of an
abstract book, modulo `2^64`; each operation keeps it (`Balanced.apply`), so
`conservation` holds after every run of a book. A replayer's counts of shares
are those of its books (`Replayer.counts`).
-/

namespace Pricetime

open Spec (Resting PriceLevel Place totalQty matchQueue matchLevels)

/-- The shares that have left the book. -/
def Counters.spent (c : Counters) : UInt64 := 2 * c.tradedQty + c.executedQty + c.canceledQty

namespace Spec

theorem toUInt64_zero : (0 : Qty).toUInt64 = 0 := rfl

/-- The shares of the orders of a side. -/
def sideQty : List PriceLevel → UInt64
  | [] => 0
  | l :: ls => totalQty l.orders + sideQty ls

theorem sideQty_append : ∀ xs ys : List PriceLevel, sideQty (xs ++ ys) = sideQty xs + sideQty ys
  | [], ys => by rw [List.nil_append, sideQty, UInt64.zero_add]
  | x :: xs, ys => by rw [List.cons_append, sideQty, sideQty, sideQty_append xs ys, UInt64.add_assoc]

@[simp] theorem sideQty_keep (p : Price) (os : List Resting) : sideQty (keep p os) = totalQty os := by
  rw [keep]
  split
  · rename_i e
    rw [e]
    rfl
  · show totalQty os + 0 = _
    rw [UInt64.add_zero]

/-! ## Matching -/

/-- What an aggressor takes to a queue is there afterwards or is counted. -/
theorem matchQueue_spent (policy : SelfTradePolicy) (aggressor : OrderId) (actor : ParticipantId)
    (price : Price) : ∀ (os : List Resting) (qty : Qty) (c : Counters) {r : QueueMatch},
      matchQueue policy aggressor actor price os qty c = r →
      r.counters.addedQty = c.addedQty ∧
      r.counters.spent + totalQty r.rest + (if r.killed then 0 else r.left.toUInt64) =
        c.spent + totalQty os + qty.toUInt64
  | [], qty, c, _, rfl => ⟨rfl, rfl⟩
  | o :: os, qty, c, r, h => by
    have ih := fun qty c => matchQueue_spent policy aggressor actor price os qty c rfl
    unfold matchQueue at h
    split at h
    · subst h
      exact ⟨rfl, rfl⟩
    · split at h
      · split at h
        · subst h
          refine ⟨rfl, ?_⟩
          simp only [Counters.spent, Counters.cancel, Counters.prevent, if_true]
          grind
        · subst h
          refine ⟨rfl, ?_⟩
          simp only [Counters.spent, Counters.cancel, Counters.prevent, if_true, totalQty]
          grind
        · subst h
          obtain ⟨h1, h2⟩ := ih qty (c.prevent.cancel o.qty)
          refine ⟨h1, h2.trans ?_⟩
          simp only [Counters.spent, Counters.cancel, Counters.prevent, totalQty]
          grind
      · split at h
        · rename_i hlt
          subst h
          refine ⟨rfl, ?_⟩
          have hsub := OrderBook.Rep.toUInt64_sub (UInt32.le_of_lt hlt)
          simp only [Counters.spent, Counters.trade, totalQty, hsub]
          show _ = _
          simp only [Bool.false_eq_true, if_false, toUInt64_zero]
          grind
        · rename_i hge
          subst h
          obtain ⟨h1, h2⟩ := ih (qty - o.qty) (c.trade o.qty)
          refine ⟨h1, h2.trans ?_⟩
          have hsub := OrderBook.Rep.toUInt64_sub (UInt32.not_lt.mp hge)
          simp only [Counters.spent, Counters.trade, totalQty, hsub]
          grind

theorem matchLevels_spent (policy : SelfTradePolicy) (aggressor : OrderId) (actor : ParticipantId)
    (reach : Price → Bool) : ∀ (ls : List PriceLevel) (qty : Qty) (c : Counters) {r : SideMatch},
      matchLevels policy aggressor actor reach ls qty c = r →
      r.counters.addedQty = c.addedQty ∧
      r.counters.spent + sideQty r.levels + r.left.toUInt64 = c.spent + sideQty ls + qty.toUInt64
  | [], qty, c, _, rfl => ⟨rfl, rfl⟩
  | l :: ls, qty, c, r, h => by
    have ih := fun qty c => matchLevels_spent policy aggressor actor reach ls qty c rfl
    obtain ⟨hq, hs⟩ := matchQueue_spent policy aggressor actor l.price l.orders qty c rfl
    unfold matchLevels at h
    split at h
    · subst h
      exact ⟨rfl, rfl⟩
    · split at h
      · dsimp only at h
        split at h
        · rename_i hk
          subst h
          rw [if_pos hk] at hs
          refine ⟨hq, ?_⟩
          simp only [sideQty_append, sideQty_keep, sideQty, toUInt64_zero]
          grind
        · rename_i hk
          subst h
          rw [if_neg hk] at hs
          obtain ⟨h1, h2⟩ := ih (matchQueue policy aggressor actor l.price l.orders qty c).left
            (matchQueue policy aggressor actor l.price l.orders qty c).counters
          refine ⟨h1.trans hq, ?_⟩
          simp only [sideQty_append, sideQty_keep, sideQty]
          grind
      · subst h
        exact ⟨rfl, rfl⟩

/-! ## Entry and changes of an order -/

theorem insertAt_qty (s : Side) (p : Price) (o : Resting) : ∀ ls : List PriceLevel,
    sideQty (insertAt s p o ls) = sideQty ls + o.qty.toUInt64
  | [] => by
    simp only [insertAt, sideQty, totalQty]
    grind
  | l :: ls => by
    have ih := insertAt_qty s p o ls
    rw [insertAt]
    split
    · simp only [sideQty, totalQty_append, totalQty]
      grind
    · split
      · rw [sideQty, ih, sideQty, UInt64.add_assoc]
      · simp only [sideQty, totalQty]
        grind

theorem modifyAt_qty {s : Side} (f : List Resting → List Resting) {l : PriceLevel} :
    ∀ {ls : List PriceLevel}, (ls.map PriceLevel.price).Pairwise (fun p p' => s.better p p' = true) →
      l ∈ ls → sideQty (modifyAt l.price f ls) + totalQty l.orders = sideQty ls + totalQty (f l.orders)
  | x :: ls, h, hl => by
    obtain ⟨hx, h⟩ := List.pairwise_cons.mp h
    rw [modifyAt]
    rcases List.mem_cons.mp hl with rfl | hl
    · rw [if_pos rfl, sideQty_append, sideQty_keep, sideQty]
      grind
    · have hne : x.price ≠ l.price := fun e => by
        have := hx _ (List.mem_map_of_mem hl)
        rw [e, Side.better_irrefl] at this
        cases this
      have ih := modifyAt_qty f h hl
      rw [if_neg hne, sideQty, sideQty]
      grind

theorem dropId_qty {o : Resting} : ∀ {os : List Resting}, (os.map Resting.id).Nodup → o ∈ os →
    totalQty (dropId o.id os) + o.qty.toUInt64 = totalQty os
  | x :: os, h, ho => by
    obtain ⟨hx, h⟩ := List.nodup_cons.mp h
    rw [dropId]
    rcases List.mem_cons.mp ho with rfl | ho
    · rw [List.eraseP_cons_of_pos (by simp), totalQty, UInt64.add_comm]
    · have hne : x.id ≠ o.id := fun e => hx (by rw [e]; exact List.mem_map_of_mem ho)
      have ih := dropId_qty h ho
      rw [dropId] at ih
      rw [List.eraseP_cons_of_neg (by simpa using hne), totalQty, totalQty, UInt64.add_assoc, ih]

theorem reduceId_qty {o : Resting} {take : Qty} (hle : take ≤ o.qty) : ∀ {os : List Resting},
    (os.map Resting.id).Nodup → o ∈ os →
    totalQty (reduceId o.id take os) + take.toUInt64 = totalQty os
  | x :: os, h, ho => by
    obtain ⟨hx, h⟩ := List.nodup_cons.mp h
    rw [reduceId, List.map_cons]
    rcases List.mem_cons.mp ho with e | ho
    · subst e
      have hrest : reduceId o.id take os = os := by
        refine (List.map_congr_left fun y hy => ?_).trans (List.map_id os)
        rw [if_neg fun e => hx (by rw [← e]; exact List.mem_map_of_mem hy)]
        rfl
      rw [reduceId] at hrest
      rw [if_pos rfl, hrest, totalQty, totalQty]
      simp only [OrderBook.Rep.toUInt64_sub hle]
      grind
    · have hne : x.id ≠ o.id := fun e => hx (by rw [e]; exact List.mem_map_of_mem ho)
      have ih := reduceId_qty hle h ho
      rw [reduceId] at ih
      rw [if_neg hne, totalQty, totalQty, UInt64.add_assoc, ih]

/-! ## The balance -/

namespace Book

/-- The shares of all resting orders. -/
def openQty (a : Book) : UInt64 := sideQty (a.levels .bid) + sideQty (a.levels .ask)

def Balanced (a : Book) : Prop := a.counters.addedQty = a.counters.spent + a.openQty

theorem openQty_setLevels (a : Book) (s : Side) (ls : List PriceLevel) :
    (a.setLevels s ls).openQty + sideQty (a.levels s) = a.openQty + sideQty ls := by
  cases s with
  | bid =>
    show sideQty ls + sideQty (a.levels .ask) + sideQty (a.levels .bid) = _
    rw [openQty]
    grind
  | ask =>
    show sideQty (a.levels .bid) + sideQty ls + sideQty (a.levels .ask) = _
    rw [openQty]
    grind

theorem matchOrder_spent (a : Book) (aggressor : OrderId) (actor : ParticipantId) (side : Side)
    (limit : Option Price) (qty : Qty) {m : Book × Qty × List Execution}
    (h : a.matchOrder aggressor actor side limit qty = m) :
    m.1.counters.addedQty = a.counters.addedQty ∧
    m.1.counters.spent + m.1.openQty + m.2.1.toUInt64 = a.counters.spent + a.openQty + qty.toUInt64 := by
  subst h
  obtain ⟨h1, h2⟩ := matchLevels_spent a.stp aggressor actor (reaches side limit)
    (a.levels (opposite side)) qty a.counters rfl
  refine ⟨h1, ?_⟩
  have hset := openQty_setLevels { a with counters := (matchLevels a.stp aggressor actor (reaches side limit)
    (a.levels (opposite side)) qty a.counters).counters } (opposite side)
    (matchLevels a.stp aggressor actor (reaches side limit) (a.levels (opposite side)) qty a.counters).levels
  have hopen : openQty { a with counters := (matchLevels a.stp aggressor actor (reaches side limit)
    (a.levels (opposite side)) qty a.counters).counters } = a.openQty := rfl
  rw [hopen] at hset
  simp only [matchOrder]
  show Counters.spent (matchLevels a.stp aggressor actor (reaches side limit) (a.levels (opposite side))
    qty a.counters).counters + _ + _ = _
  simp only at hset h2 ⊢
  grind

theorem rest_openQty (a : Book) (s : Side) (p : Price) (o : Resting) :
    (a.rest s p o).openQty = a.openQty + o.qty.toUInt64 := by
  have hset := openQty_setLevels a s (insertAt s p o (a.levels s))
  rw [insertAt_qty] at hset
  show (a.setLevels s _).openQty = _
  grind

theorem remove_openQty {a : Book} (h : a.Wf) {id : OrderId} {pl : Place} (hf : a.find id = some pl) :
    (a.remove pl).openQty + pl.order.qty.toUInt64 = a.openQty := by
  obtain ⟨l, hl, hp, ho⟩ := mem_places.mp (find_some hf).1
  have hset := openQty_setLevels a pl.side (modifyAt pl.price (dropId pl.order.id) (a.levels pl.side))
  have hmod := modifyAt_qty (dropId pl.order.id) (h.side pl.side).sorted hl
  have hdrop := dropId_qty (h.queue_nodup hl) ho
  rw [hp] at hmod
  show (a.setLevels _ _).openQty + _ = _
  grind

theorem reduce_openQty {a : Book} (h : a.Wf) {id : OrderId} {pl : Place} (hf : a.find id = some pl)
    {take : Qty} (hle : take ≤ pl.order.qty) :
    (a.reduce pl take).openQty + take.toUInt64 = a.openQty := by
  obtain ⟨l, hl, hp, ho⟩ := mem_places.mp (find_some hf).1
  have hset := openQty_setLevels a pl.side (modifyAt pl.price (reduceId pl.order.id take) (a.levels pl.side))
  have hmod := modifyAt_qty (reduceId pl.order.id take) (h.side pl.side).sorted hl
  have hred := reduceId_qty hle (h.queue_nodup hl) ho
  rw [hp] at hmod
  show (a.setLevels _ _).openQty + _ = _
  grind

/-- Shares taken off resting orders are counted once. -/
theorem counted_spent (a : Book) (take : Qty) (isExecution : Bool) :
    (a.counted take isExecution).counters.spent = a.counters.spent + take.toUInt64 ∧
      (a.counted take isExecution).counters.addedQty = a.counters.addedQty := by
  cases isExecution with
  | true =>
    refine ⟨?_, rfl⟩
    show 2 * a.counters.tradedQty + (a.counters.executedQty + take.toUInt64) + a.counters.canceledQty = _
    rw [Counters.spent]
    grind
  | false =>
    refine ⟨?_, rfl⟩
    show 2 * a.counters.tradedQty + a.counters.executedQty + (a.counters.canceledQty + take.toUInt64) = _
    rw [Counters.spent]
    grind

/-- What an accepted order's shares come to, before those left are dealt with. -/
theorem matched_balance {a : Book} (h : Balanced a) (id : OrderId) (actor : ParticipantId) (side : Side)
    (limit : Option Price) (qty : Qty) {m : Book × Qty × List Execution}
    (hm : (a.countAdded qty).matchOrder id actor side limit qty = m) :
    m.1.counters.addedQty = m.1.counters.spent + m.1.openQty + m.2.1.toUInt64 := by
  obtain ⟨h1, h2⟩ := matchOrder_spent (a.countAdded qty) id actor side limit qty hm
  rw [h1, h2]
  show a.counters.addedQty + qty.toUInt64 = a.counters.spent + a.openQty + qty.toUInt64
  rw [h]

theorem Balanced.move {a a' : Book} (hw : a.Wf) (h : Balanced a) (hm : Move a a') : Balanced a' := by
  cases hm with
  | policy p => exact h
  | take id actor side limit qty =>
    have hb := matched_balance h id actor side limit qty rfl
    rw [taken]
    generalize (a.countAdded qty).matchOrder id actor side limit qty = m at hb
    show m.1.counters.addedQty = 2 * m.1.counters.tradedQty + m.1.counters.executedQty +
      (m.1.counters.canceledQty + m.2.1.toUInt64) + m.1.openQty
    rw [hb, Counters.spent]
    grind
  | @enter id h0 hid actor side price qty =>
    have hb := matched_balance h id actor side (some price) qty rfl
    rw [entered]
    generalize (a.countAdded qty).matchOrder id actor side (some price) qty = m at hb
    split
    · rw [Balanced, rest_openQty]
      show m.1.counters.addedQty = m.1.counters.spent + (m.1.openQty + m.2.1.toUInt64)
      rw [hb, UInt64.add_assoc]
    · rename_i hz
      have hz : m.2.1 = 0 := Classical.byContradiction fun e => hz (UInt32.pos_iff_ne_zero.mpr e)
      rw [hz, toUInt64_zero, UInt64.add_zero] at hb
      exact hb
  | @passive id qty h0 hq hid side price =>
    rw [Balanced, rest_openQty]
    show a.counters.addedQty + qty.toUInt64 = a.counters.spent + (a.openQty + qty.toUInt64)
    rw [h, UInt64.add_assoc]
  | @remove id pl hf isExecution =>
    obtain ⟨h1, h2⟩ := counted_spent a pl.order.qty isExecution
    have h3 := remove_openQty (hw.setCounters (a.counted pl.order.qty isExecution).counters) hf
    show (a.counted _ isExecution).counters.addedQty = (a.counted _ isExecution).counters.spent +
      ((a.counted _ isExecution).remove pl).openQty
    rw [h1, h2, h, UInt64.add_assoc, UInt64.add_comm pl.order.qty.toUInt64]
    exact congrArg _ h3.symm
  | @reduce id pl hf take hlt isExecution =>
    obtain ⟨h1, h2⟩ := counted_spent a take isExecution
    have h3 := reduce_openQty (hw.setCounters (a.counted take isExecution).counters) hf
      (UInt32.le_of_lt hlt)
    show (a.counted _ isExecution).counters.addedQty = (a.counted _ isExecution).counters.spent +
      ((a.counted _ isExecution).reduce pl take).openQty
    rw [h1, h2, h, UInt64.add_assoc, UInt64.add_comm take.toUInt64]
    exact congrArg _ h3.symm

theorem Balanced.apply {a : Book} (hw : a.Wf) (h : Balanced a) (accepts : Price → Bool)
    (op : OrderBook.Op) : Balanced (a.apply accepts op).2 :=
  (apply_inv (I := fun a => a.Wf ∧ Balanced a) (fun ⟨hw, h⟩ hm => ⟨hw.move hm, h.move hw hm⟩) ⟨hw, h⟩
    accepts op).2

theorem balanced_empty : Balanced {} := rfl

end Book

end Spec

namespace OrderBook

/-- The shares of the orders that a walk over both sides meets. -/
def openQty {L M : Type} [Ladder L] [IdMap M] (b : OrderBook L M) : Option UInt64 := do
  let bids ← b.walk .bid
  let asks ← b.walk .ask
  some (((bids ++ asks).flatMap fun l => l.orders.map fun o => o.2.toUInt64).sum)

variable {L M : Type} [Ladder L] [LawfulLadder L] [IdMap M] [LawfulIdMap M] {accepts : Price → Bool}
  {b : OrderBook L M} {a : Spec.Book}

theorem Sim.openQty_eq (h : Sim accepts b a) (hw : Within L a) : b.openQty = some a.openQty := by
  have queue : ∀ os : List Resting, (os.map fun o => o.qty.toUInt64).sum = totalQty os := by
    intro os
    induction os with
    | nil => rfl
    | cons o os ih => rw [List.map_cons, List.sum_cons, ih, totalQty]
  have side : ∀ ls : List PriceLevel,
      ((ls.map PriceLevel.view).flatMap fun l => l.orders.map fun o => o.2.toUInt64).sum =
        Spec.sideQty ls := by
    intro ls
    induction ls with
    | nil => rfl
    | cons l ls ih =>
      rw [List.map_cons, List.flatMap_cons, List.sum_append, ih, Spec.sideQty, ← queue]
      simp only [PriceLevel.view, List.map_map]
      rfl
  rw [openQty, h.walk_eq hw, h.walk_eq hw]
  simp only [Option.bind_eq_bind, Option.bind_some, List.flatMap_append, List.sum_append,
    Spec.Book.walk, side, Spec.Book.openQty]

theorem spec_balanced {ops : List Op} {a : Spec.Book}
    (h : Runs.run (specStep accepts) {} ops = some a) : a.Balanced := by
  refine (Runs.inv_of_run (I := fun a => a.Wf ∧ a.Balanced) (fun a op out a' hi hs => ?_) ops
    ⟨Spec.Book.wf_empty, Spec.Book.balanced_empty⟩ h).2
  obtain ⟨-, rfl⟩ := Prod.mk.inj (Option.some.inj ((specStep_eq a op).symm.trans hs))
  exact ⟨hi.1.apply accepts op, hi.2.apply hi.1 accepts op⟩

/-- After every run, each share added is accounted for. -/
theorem conservation {ladder : L} (hv : Vacant ladder) {b₀ : OrderBook L M} (h₀ : new ladder = some b₀)
    (ops : List Op) (hfew : Runs.Along apply Few b₀ ops) :
    ∃ b open_, Runs.run apply b₀ ops = some b ∧ b.openQty = some open_ ∧
      b.counters.addedQty = 2 * b.counters.tradedQty + b.counters.executedQty + b.counters.canceledQty + open_ := by
  obtain ⟨b, hb, hsim⟩ := new_sim (M := M) hv
  cases h₀.symm.trans hb
  obtain ⟨b, a, hb, ha, h, hat⟩ := run_sim Sim.within_of_few hsim ops hfew
  have hcounters : b.counters = a.counters := by
    obtain ⟨T, Q, h⟩ := h
    exact h.counters.symm
  refine ⟨b, a.openQty, hb, h.openQty_eq (h.within_of_few hat), ?_⟩
  rw [hcounters]
  exact spec_balanced ha

end OrderBook

/-! ## The replayer -/

namespace Itch.Replayer

variable {L M : Type} [Ladder L] [LawfulLadder L] [IdMap M] [LawfulIdMap M]

/-- A replayer's share counts are sums over its books. -/
structure Counted (a : Spec.Replayer) : Prop where
  added : a.stats.sharesAdded = a.books.total fun b => b.counters.addedQty
  executed : a.stats.sharesExecuted = a.books.total fun b => b.counters.executedQty

theorem Counted.receive {accepts : Price → Bool} {r : Replayer L M} {a : Spec.Replayer} (hc : Counted a)
    (h : Refines accepts r a) (msg : List UInt8) : Counted (a.receive accepts msg) := by
  rw [Spec.Replayer.receive]
  cases decode msg with
  | none => exact hc
  | some m =>
    obtain ⟨added, executed, -, ha, he, hsa, hse⟩ :=
      (@Spec.Replayer.apply_touch accepts _ h.books.owner_mem m msg.length).total h.books.nodup
        h.books.unseen
    exact ⟨by rw [Option.elim_some, hsa, ha, hc.added], by rw [Option.elim_some, hse, he, hc.executed]⟩

/-- After every run, the shares counted are those that the books have
counted. -/
theorem counts {ladder : L} (hv : Vacant ladder) {r₀ : Replayer L M} (h₀ : new ladder = some r₀)
    (symbols : List Symbol) (msgs : List (List UInt8)) (hc : ∀ msg ∈ msgs, Complete msg)
    (hfew : Runs.Along apply (fun r => r.books.Few) (r₀.trackOnly symbols) msgs) :
    ∃ r, Runs.run apply (r₀.trackOnly symbols) msgs = some r ∧
      r.stats.sharesAdded = (r.books.books.map fun e => e.2.counters.addedQty).sum ∧
      r.stats.sharesExecuted = (r.books.books.map fun e => e.2.counters.executedQty).sum := by
  obtain ⟨r, hr, h⟩ := new_refines (M := M) hv
  cases h₀.symm.trans hr
  obtain ⟨r, hr, ⟨h, hct⟩, -⟩ := Runs.run_foldl
    (R := fun r a => Refines (Ladder.validPrice ladder) r a ∧ Counted a) (A := Complete)
    (f := Spec.Replayer.receive (Ladder.validPrice ladder)) (Q := fun _ _ => True)
    (fun r a msg hi hb hm _ => by
      obtain ⟨out, r', hr', h'⟩ := hi.1.receive hb hm
      exact ⟨out, r', hr', h', hi.2.receive hi.1 msg⟩)
    msgs ⟨h.trackOnly symbols, rfl, rfl⟩ hc hfew (Runs.steps_true _ msgs)
  have hcounters : ∀ {b : OrderBook L M} {a : Spec.Book}, OrderBook.Sim (Ladder.validPrice ladder) b a →
      b.counters = a.counters := fun ⟨_, _, h⟩ => h.counters.symm
  refine ⟨r, hr, ?_, ?_⟩
  · rw [h.stats, hct.added]
    exact (h.books.total_eq (g := fun b => b.counters.addedQty) fun hs => by rw [hcounters hs]).symm
  · rw [h.stats, hct.executed]
    exact (h.books.total_eq (g := fun b => b.counters.executedQty) fun hs => by rw [hcounters hs]).symm

end Itch.Replayer

/-- Each share added to a book is accounted for after every run, and a
replayer's counts of shares are those of its books. -/
theorem shares_conserved {L M : Type} [Ladder L] [LawfulLadder L] [IdMap M] [LawfulIdMap M] {ladder : L}
    (hv : Vacant ladder) :
    (∀ {b₀ : OrderBook L M}, OrderBook.new ladder = some b₀ → ∀ ops,
      Runs.Along OrderBook.apply OrderBook.Few b₀ ops →
      ∃ b open_, Runs.run OrderBook.apply b₀ ops = some b ∧ b.openQty = some open_ ∧
        b.counters.addedQty = 2 * b.counters.tradedQty + b.counters.executedQty + b.counters.canceledQty + open_) ∧
    ∀ {r₀ : Itch.Replayer L M}, Itch.Replayer.new ladder = some r₀ → ∀ symbols msgs,
      (∀ msg ∈ msgs, Itch.Complete msg) →
      Runs.Along Itch.Replayer.apply (fun r => r.books.Few) (r₀.trackOnly symbols) msgs →
      ∃ r, Runs.run Itch.Replayer.apply (r₀.trackOnly symbols) msgs = some r ∧
        r.stats.sharesAdded = (r.books.books.map fun e => e.2.counters.addedQty).sum ∧
        r.stats.sharesExecuted = (r.books.books.map fun e => e.2.counters.executedQty).sum :=
  ⟨fun h₀ ops => OrderBook.conservation hv h₀ ops, fun h₀ symbols msgs => Itch.Replayer.counts hv h₀ symbols msgs⟩

/-- A bid of 100 shares, 30 of them executed and 20 cancelled, once as
operations of a book and once as messages. -/
theorem shares_conserved_bid :
    ∃ (b₀ b : OrderBook MapLadder OpenAddressIdMap) (open_ : UInt64) (r₀ r : Itch.Replayer MapLadder OpenAddressIdMap),
      OrderBook.new {} = some b₀ ∧
      Runs.run OrderBook.apply b₀ [.insertPassive 1 .bid 5 100, .executeResting 1 30, .reduceResting 1 20] = some b ∧
      b.openQty = some open_ ∧
      b.counters.addedQty = 2 * b.counters.tradedQty + b.counters.executedQty + b.counters.canceledQty + open_ ∧
      Itch.Replayer.new {} = some r₀ ∧
      Runs.run Itch.Replayer.apply (r₀.trackOnly []) (List.map Itch.WriterCall.body
        [.addOrder 0 1 .bid 100 {} 5, .orderExecuted 0 1 30 7, .orderCancel 0 1 20]) = some r ∧
      r.stats.sharesAdded = (r.books.books.map fun e => e.2.counters.addedQty).sum ∧
      r.stats.sharesExecuted = (r.books.books.map fun e => e.2.counters.executedQty).sum := by
  obtain ⟨b₀, hb₀, hsim⟩ := OrderBook.new_sim (M := OpenAddressIdMap) MapLadder.vacant
  obtain ⟨r₀, hr₀, href⟩ := Itch.Replayer.new_refines (M := OpenAddressIdMap) MapLadder.vacant
  obtain ⟨hbook, hreplay⟩ := shares_conserved (L := MapLadder) (M := OpenAddressIdMap) MapLadder.vacant
  obtain ⟨b, open_, hb, ho, hc⟩ := hbook hb₀ [.insertPassive 1 .bid 5 100, .executeResting 1 30, .reduceResting 1 20]
    (OrderBook.along_few hsim _ (by decide))
  have hfew := (href.trackOnly []).along_few_of_empty rfl (List.map Itch.WriterCall.body
    [.addOrder 0 1 .bid 100 {} 5, .orderExecuted 0 1 30 7, .orderCancel 0 1 20]) (by decide)
  obtain ⟨r, hr, ha, he⟩ := hreplay hr₀ [] _ (Itch.body_complete _) hfew
  exact ⟨b₀, b, open_, r₀, r, hb₀, hb, ho, hc, hr₀, hr, ha, he⟩

end Pricetime
