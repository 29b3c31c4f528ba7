import Pricetime.Proof.NodeRuns
import Pricetime.Proof.TreeLadder

/-!
# Books over trees, however many orders rest

Over a tree-backed ladder, the feed's operations on orders that rest end, and
put levels on the ladder only at the prices they are given: `Priced P b` says
that the levels of `b` are at prices in `P`. Neither needs the counters of the
levels to be right, so that there is no bound on how many orders rest.
-/

namespace Pricetime

namespace OrderBook

section Priced

variable {L M : Type} [Ladder L] [LawfulLadder L] {P : Side → Price → Prop} {b b' : OrderBook L M}

/-- The ladder's levels are at prices in `P`. -/
def Priced (P : Side → Price → Prop) (b : OrderBook L M) : Prop :=
  ∃ T, LawfulLadder.Tracks b.ladder (fun q => (b.heap.level q).price) T ∧ ∀ s, ∀ q ∈ T s, P s (b.heap.level q).price

theorem Priced.congr (h : Priced P b) (hl : b'.ladder = b.ladder)
    (hp : ∀ q, (b'.heap.level q).price = (b.heap.level q).price) : Priced P b' := by
  obtain ⟨T, ht, hT⟩ := h
  refine ⟨T, ?_, fun s q hq => ?_⟩
  · rw [hl]
    exact LawfulLadder.congr ht fun _ q _ => hp q
  · rw [hp]
    exact hT s q hq

theorem Priced.best (h : Priced P b) {s : Side} {l : Level} (hl : b.best s = some l) : P s l.price := by
  obtain ⟨T, ht, hT⟩ := h
  obtain ⟨q, hq, rfl⟩ := Option.map_eq_some_iff.mp hl
  rw [LawfulLadder.best_eq ht] at hq
  exact hT s q (List.mem_of_head? hq)

theorem Priced.empty {ladder : L} (hv : Vacant ladder) (hl : b.ladder = ladder) (hh : b.heap = {}) : Priced P b := by
  refine ⟨fun _ => [], ?_, fun _ _ hq => absurd hq List.not_mem_nil⟩
  rw [hl, hh]
  exact hv

variable [TreeLadder L] [IdMap M] [LawfulIdMap M]

/-- An order comes to rest at a price in `P`. -/
theorem Priced.rest (h : Priced P b) (hi : NodeInv b) {id : OrderId} (h0 : id ≠ 0) (hid : b.lookup id = none)
    {side : Side} {price : Price} (hp : P side price) (qty : Qty) (actor : ParticipantId) :
    ∃ b', b.rest id side price qty actor = some b' ∧ Priced P b' := by
  obtain ⟨T, ht, hT⟩ := h
  -- pushing the order back leaves the prices of the levels
  have rested {q : LevelPtr} {ladder : L} {level : Levels} {T' : Side → List LevelPtr}
      (hg : Ladder.getOrCreate b.ladder b.heap.level side price = some (q, ladder, level))
      (ht' : LawfulLadder.Tracks ladder (fun q => (level q).price) T')
      (hT' : ∀ s, ∀ q ∈ T' s, P s (level q).price) :
      ∃ b', b.rest id side price qty actor = some b' ∧ Priced P b' := by
    obtain ⟨o, b', hb', hlad, hr⟩ := rest_spec hi h0 hid hg (LawfulLadder.getOrCreate_frame hg).1 qty actor
    refine ⟨b', hb', T', ?_, fun s q hq => ?_⟩
    · rw [hlad]
      exact LawfulLadder.congr ht' fun _ q _ => (hr.sums q).1
    · rw [(hr.sums q).1]
      exact hT' s q hq
  rcases TreeLadder.getOrCreate_spec ht price side with ⟨q, -, -, hg⟩ | ⟨q, l, xs, ys, hside, hfresh, hxy, hg, ht'⟩
  · exact rested hg ht hT
  · refine rested hg ht' fun s r hr => ?_
    by_cases e : r = q
    · subst e
      have hs : levelSide r = s := LawfulLadder.side ht' hr
      rw [Function.update_self, ← hs, hside]
      exact hp
    · rw [Function.update_of_ne e]
      refine hT s r ?_
      by_cases hs : s = side
      · subst hs
        rw [Function.update_self, List.mem_append, List.mem_cons, or_iff_right e] at hr
        rw [hxy, List.mem_append]
        exact hr
      · rwa [Function.update_of_ne hs] at hr

/-- An order leaves its queue, and its level the ladder if that is empty. -/
theorem Priced.removeDrop (h : Priced P b) (hi : NodeInv b) {q : LevelPtr} {o : OrderPtr} (ho : b.Mapped o)
    (hq : (b.heap.order o).level = some q) (s : Side) :
    ∃ b₁ b₂, b.removeOrder q o = some b₁ ∧ b₁.dropIfEmpty s q = some b₂ ∧ Priced P b₂ := by
  obtain ⟨b₁, hb₁, hr⟩ := removeOrder_spec hi ho hq
  have h₁ : Priced P b₁ := h.congr hr.rest.2.1 fun r => by
    rw [hr.level, (Level.remove_sums b.heap q o (hi.prev_ne ho) r).1]
  by_cases he : (b₁.heap.level q).orderCount = 0
  · obtain ⟨T, ht, hT⟩ := h₁
    obtain ⟨l, qs, hl, hsub, ht'⟩ := TreeLadder.onLevelEmpty_spec ht s q
    refine ⟨b₁, { b₁ with ladder := l }, hb₁, ?_, _, ht', fun s' r hr => hT s' r ?_⟩
    · rw [dropIfEmpty, if_pos he, hl]
      rfl
    · by_cases e : s' = s
      · subst e
        rw [Function.update_self] at hr
        exact hsub.subset hr
      · rwa [Function.update_of_ne e] at hr
  · exact ⟨b₁, b₁, hb₁, if_neg he, h₁⟩

omit [TreeLadder L] [IdMap M] [LawfulIdMap M] in
/-- Shares off an order, in place. -/
theorem Priced.reduce (h : Priced P b) (q : LevelPtr) (o : OrderPtr) (delta : Qty) :
    Priced P { b with heap := Level.reduce b.heap q o delta } := by
  refine h.congr rfl fun r => ?_
  show ((Level.reduce b.heap q o delta).level r).price = _
  rw [Level.reduce, Heap.modifyLevel_level]
  split
  · rename_i e
    rw [e]
    rfl
  · rfl

end Priced

variable {L M : Type} [Ladder L] [LawfulLadder L] [TreeLadder L] [IdMap M] [LawfulIdMap M]
  {P : Side → Price → Prop} {b : OrderBook L M} {id : OrderId}

theorem insertPassive_priced (h : Priced P b) (hi : NodeInv b) (h0 : id ≠ 0) {side : Side} {price : Price} {qty : Qty}
    (hq : qty ≠ 0) (hp : P side price) (hid : b.orderOf id = none) :
    ∃ b', b.insertPassive id side price qty = some ({ result := .ok }, b') ∧ Priced P b' ∧
      Changes id (some ⟨id, price, qty, side, 0⟩) b b' := by
  have hl := orderOf_eq_none.mp hid
  obtain ⟨r, hr, hok⟩ := validate_spec hi id price qty
  have hr : b.validate id price qty = some .ok := by
    rw [hr, hok.mpr ⟨h0, hq, TreeLadder.validPrice b.ladder price, hl⟩]
  have hc : Priced P (b.countAdded qty) := h.congr rfl fun _ => rfl
  obtain ⟨b', hb', hpriced⟩ := hc.rest (hi.setCounters (b.counters.add qty)).inv h0 hl hp qty 0
  have hb : b.insertPassive id side price qty = some ({ result := .ok }, b') := by
    rw [insertPassive, hr]
    simp only [Option.bind_eq_bind, Option.bind_some, hb', ne_eq, not_true_eq_false, if_false]
  exact ⟨b', hb, hpriced, (insertPassive_orders hi hb).2.2 rfl⟩

theorem cancel_priced (h : Priced P b) (hi : NodeInv b) (hid : b.orderOf id ≠ none) :
    ∃ b', b.cancel id = some ({ result := .ok }, b') ∧ Priced P b' ∧ Changes id none b b' := by
  obtain ⟨o, hl⟩ := Option.ne_none_iff_exists'.mp fun e => hid (orderOf_eq_none.mpr e)
  have ho := hi.mapped hl
  obtain ⟨q, hq⟩ := hi.owned ho
  have hc := hi.setCounters (b.counters.cancel (b.heap.order o).qty)
  have hpriced : Priced P { b with counters := b.counters.cancel (b.heap.order o).qty } := h.congr rfl fun _ => rfl
  obtain ⟨b₁, b₂, hb₁, hb₂, hpriced⟩ := hpriced.removeDrop hc.inv ho hq (b.heap.order o).side
  have hb : b.cancel id = some ({ result := .ok }, b₂) := by
    have hopen : b.cancelOpen o = some b₂ := by
      rw [cancelOpen, hq]
      exact Option.bind_eq_some_iff.mpr ⟨q, rfl, Option.bind_eq_some_iff.mpr ⟨b₁, hb₁, hb₂⟩⟩
    rw [cancel, hi.find_eq, hl]
    simp only [Option.bind_eq_bind, Option.bind_some, hopen]
  exact ⟨b₂, hb, hpriced, (cancel_orders hi hb).2⟩

theorem consume_priced (h : Priced P b) (hi : NodeInv b) (hid : b.orderOf id ≠ none) (qty : Qty) (isExecution : Bool) :
    ∃ reply b', b.consume id qty isExecution = some (reply, b') ∧ Priced P b' := by
  obtain ⟨o, hl⟩ := Option.ne_none_iff_exists'.mp fun e => hid (orderOf_eq_none.mpr e)
  have ho := hi.mapped hl
  obtain ⟨q, hq⟩ := hi.owned ho
  rw [consume, hi.find_eq, hl]
  simp only [Option.bind_eq_bind, Option.bind_some]
  split
  · exact ⟨_, b, rfl, h⟩
  generalize (if isExecution = true then _ else _ : Counters) = counters
  have hc := hi.setCounters counters
  have hpriced : Priced P { b with counters } := h.congr rfl fun _ => rfl
  rw [hq]
  simp only [Option.bind_some]
  generalize (if qty < (b.heap.order o).qty then qty else (b.heap.order o).qty) = take
  by_cases he : take = (b.heap.order o).qty
  · obtain ⟨b₁, b₂, hb₁, hb₂, hpriced⟩ := hpriced.removeDrop hc.inv ho hq (b.heap.order o).side
    refine ⟨{ result := .ok, taken := take }, b₂, ?_, hpriced⟩
    rw [if_pos he, hb₁, Option.bind_some, hb₂, Option.bind_some]
  · refine ⟨{ result := .ok, taken := take }, _, ?_, hpriced.reduce q o take⟩
    rw [if_neg he]

end OrderBook

end Pricetime
