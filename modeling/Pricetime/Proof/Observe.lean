import Pricetime.Proof.Matching

/-!
# What a book shows

A book in simulation with an abstract one shows what that has: the walk over
a side (`Sim.walk_eq`), its best level, the depth, the state hash, and the
quantity available to a fill-or-kill order (`Sim.available_spec`), whose sum
the code stops as soon as it is enough.
-/

namespace Pricetime

open Spec (Resting PriceLevel totalQty prevents availableQueue)

namespace Spec

/-- A level in the depth of a book. -/
def PriceLevel.depth (l : PriceLevel) : DepthLevel :=
  ⟨l.price, totalQty l.orders, UInt32.ofNat l.orders.length⟩

namespace Book

def walk (b : Book) (s : Side) : List LevelView := (b.levels s).map PriceLevel.view

def depth (b : Book) (maxLevels : Nat) : Depth :=
  ⟨((b.levels .bid).take maxLevels).map PriceLevel.depth,
    ((b.levels .ask).take maxLevels).map PriceLevel.depth⟩

def stateHash (b : Book) : UInt64 :=
  let value := (b.walk .bid).foldl LevelView.mix (Fnv1a64.mix Fnv1a64.kOffset 1)
  (b.walk .ask).foldl LevelView.mix (Fnv1a64.mix value 2)

end Book

end Spec

/-! ## Queues -/

theorem queueFrom_eq {h : Heap} : ∀ {os : List OrderPtr} {fuel : Nat},
    Links.Path h.links.next os none → os.length ≤ fuel → h.queueFrom fuel os.head? = some os
  | [], fuel, _, _ => by cases fuel <;> rfl
  | o :: os, 0, _, hf => absurd hf (Nat.not_succ_le_zero _)
  | o :: os, fuel + 1, hp, hf => by
    have hn : (h.order o).next = os.head? := by
      have := hp.1
      rwa [Option.or_none] at this
    have ih := queueFrom_eq hp.2 (Nat.le_of_succ_le_succ hf)
    simp only [List.head?_cons, Heap.queueFrom, hn, ih, Option.bind_eq_bind, Option.bind_some]

/-- The shares of a queue, as a number. -/
def natTotal (os : List Resting) : Nat := (os.map fun o => o.qty.toNat).sum

theorem natTotal_le : ∀ os : List Resting, natTotal os ≤ os.length * (2 ^ 32 - 1)
  | [] => Nat.le_refl 0
  | o :: os => by
    have ih := natTotal_le os
    have ho := o.qty.toNat_lt
    simp only [natTotal, List.map_cons, List.sum_cons, List.length_cons] at ih ⊢
    omega

theorem toNat_totalQty : ∀ os : List Resting, (totalQty os).toNat = natTotal os % 2 ^ 64
  | [] => rfl
  | o :: os => by
    rw [totalQty, UInt64.toNat_add, toNat_totalQty os, UInt32.toNat_toUInt64]
    simp only [natTotal, List.map_cons, List.sum_cons]
    omega

/-- A level's aggregate does not wrap. -/
theorem add_totalQty {os : List Resting} (hlen : os.length < 2 ^ 32) {total : UInt64}
    (ht : total.toNat < 2 ^ 32) : (total + totalQty os).toNat = total.toNat + natTotal os := by
  have hle := natTotal_le os
  have hlt : natTotal os < 2 ^ 64 - 2 ^ 32 := by
    have := Nat.mul_le_mul_right (2 ^ 32 - 1) (Nat.le_sub_one_of_lt hlen)
    omega
  rw [UInt64.toNat_add, toNat_totalQty]
  omega

theorem toNat_totalQty_of_lt {os : List Resting} (hlen : os.length < 2 ^ 32) : (totalQty os).toNat = natTotal os := by
  have hzero := add_totalQty hlen (by decide : (0 : UInt64).toNat < 2 ^ 32)
  rwa [UInt64.zero_add, UInt64.toNat_zero, Nat.zero_add] at hzero

theorem availableQueue_off {policy : SelfTradePolicy} {actor : ParticipantId}
    (h : ∀ participant, prevents policy actor participant = false) : ∀ os : List Resting,
      availableQueue policy actor os = (natTotal os, true)
  | [] => rfl
  | o :: os => by
    rw [availableQueue, if_neg (by rw [h]; exact Bool.false_ne_true), availableQueue_off h os]
    rfl

namespace OrderBook

/-- What the scan of a queue, begun at `total`, tells of the sum `r'` over the
queue: it goes on past the queue with the whole sum, short of the need, or it
stops with a sum that answers the question. -/
def Scanned (need : Qty) (total : Nat) (r : UInt64 × Bool) (r' : Nat × Bool) : Prop :=
  (r.2 = true → r'.2 = true ∧ r.1.toNat = total + r'.1 ∧ r.1.toNat < need.toNat) ∧
  (r.2 = false → (r.1 < need.toUInt64 ∧ r'.2 = false ∧ total + r'.1 < need.toNat) ∨
    (¬ r.1 < need.toUInt64 ∧ need.toNat ≤ total + r'.1))

theorem availableOrders_spec {policy : SelfTradePolicy} {actor : ParticipantId} (stops : Bool)
    (need : Qty) (hp : ∀ participant, prevents policy actor participant = decide (participant = actor))
    (hs : stops = true ↔ policy ≠ .cancelResting) : ∀ (os : List Order) (total : UInt64),
      total.toNat < need.toNat →
      Scanned need total.toNat (availableOrders actor stops need os total)
        (availableQueue policy actor (os.map Order.resting))
  | [], total, ht => ⟨fun _ => ⟨rfl, rfl, ht⟩, nofun⟩
  | o :: os, total, ht => by
    have ih := availableOrders_spec stops need hp hs os
    have hneed := need.toNat_lt
    rw [List.map_cons, availableOrders, availableQueue, hp]
    by_cases hown : o.participant = actor
    · rw [if_pos hown, if_pos (decide_eq_true (show o.resting.participant = actor from hown))]
      by_cases hst : stops = true
      · rw [if_pos hst, if_neg (hs.mp hst)]
        refine ⟨nofun, fun _ => .inl ⟨?_, rfl, ht⟩⟩
        rw [UInt64.lt_iff_toNat_lt, UInt32.toNat_toUInt64]
        exact ht
      · rw [if_neg hst, if_pos (Classical.not_not.mp fun e => hst (hs.mpr e))]
        exact ih total ht
    · rw [if_neg hown, if_neg (show ¬ decide (o.resting.participant = actor) = true from
        fun e => hown (of_decide_eq_true e))]
      have ho := o.qty.toNat_lt
      have hsum : (total + o.qty.toUInt64).toNat = total.toNat + o.qty.toNat := by
        rw [UInt64.toNat_add, UInt32.toNat_toUInt64]
        omega
      show Scanned need total.toNat (if total + o.qty.toUInt64 ≥ need.toUInt64 then _ else _)
        (o.qty.toNat + _, _)
      by_cases hge : total + o.qty.toUInt64 ≥ need.toUInt64
      · rw [if_pos hge]
        refine ⟨nofun, fun _ => .inr ⟨UInt64.not_lt.mpr hge, ?_⟩⟩
        have := UInt64.le_iff_toNat_le.mp hge
        rw [hsum, UInt32.toNat_toUInt64] at this
        show _ ≤ _ + (_ + _)
        omega
      · rw [if_neg hge]
        have hlt := UInt64.lt_iff_toNat_lt.mp (UInt64.not_le.mp hge)
        rw [UInt32.toNat_toUInt64] at hlt
        have := ih _ hlt
        rw [hsum] at this
        simpa only [Scanned, Nat.add_assoc] using this

variable {L M : Type} [Ladder L] [LawfulLadder L] [IdMap M] [LawfulIdMap M]

namespace SimBy

variable {accepts : Price → Bool} {b : OrderBook L M} {a : Spec.Book} {T : Side → List LevelPtr}
  {Q : LevelPtr → List OrderPtr}

theorem queueFrom_eq (h : SimBy accepts b a T Q) {s : Side} {q : LevelPtr} (hq : q ∈ T s) :
    b.heap.queueFrom b.openOrders (b.heap.level q).head = some (Q q) := by
  rw [h.rep.head_eq]
  exact Pricetime.queueFrom_eq (h.rep.queue q).path (h.queue_length_le hq)

theorem levels_eq (h : SimBy accepts b a T Q) (hw : Within L a) (s : Side) :
    Ladder.levels b.ladder b.heap.level s = some (T s) :=
  LawfulLadder.levels_eq h.rep.tracks (h.active hw) s (h.fits hw s)

theorem viewLevel_eq (h : SimBy accepts b a T Q) {s : Side} {q : LevelPtr} (hq : q ∈ T s) :
    b.viewLevel q = some (absLevel b.heap Q q).view := by
  simp only [viewLevel, h.queueFrom_eq hq, Option.bind_eq_bind, Option.bind_some, h.rep.count,
    h.rep.total, PriceLevel.view, absLevel, restings, List.length_map, List.map_map]
  rfl

theorem walk_eq (h : SimBy accepts b a T Q) (hw : Within L a) (s : Side) :
    b.walk s = some (a.walk s) := by
  have views : ∀ qs : List LevelPtr, (∀ q ∈ qs, q ∈ T s) →
      qs.mapM b.viewLevel = some ((qs.map (absLevel b.heap Q)).map PriceLevel.view) := by
    intro qs hqs
    induction qs with
    | nil => rfl
    | cons q qs ih =>
      rw [List.mapM_cons, h.viewLevel_eq (hqs q List.mem_cons_self),
        ih fun r hr => hqs r (List.mem_cons_of_mem _ hr)]
      rfl
  rw [OrderBook.walk, h.levels_eq hw, Spec.Book.walk, h.levels]
  exact views (T s) fun _ hq => hq

theorem prevents_on (h : SimBy accepts b a T Q) {actor : ParticipantId} (hon : b.stpOn actor = true) :
    (∀ p, prevents a.stp actor p = decide (p = actor)) ∧ (b.stopsAtOwn = true ↔ a.stp ≠ .cancelResting) := by
  constructor
  · intro p
    rw [h.stp, Bool.eq_iff_iff, ← prevents_iff b actor p, decide_eq_true_eq]
    exact and_iff_right hon
  · have hne : b.stp ≠ .none := by
      simp only [stpOn, Bool.and_eq_true, decide_eq_true_eq] at hon
      exact hon.2
    rw [h.stp, stopsAtOwn]
    revert hne
    cases b.stp <;> decide

theorem prevents_off (h : SimBy accepts b a T Q) {actor : ParticipantId} (hoff : ¬ b.stpOn actor = true)
    (p : ParticipantId) : prevents a.stp actor p = false := by
  refine Bool.eq_false_iff.mpr fun e => hoff ?_
  rw [h.stp] at e
  exact ((prevents_iff b actor p).mpr e).1

/-- The scan from any level on, the sum so far being short of the need. -/
theorem availableLevels_spec (h : SimBy accepts b a T Q) (hw : Within L a) (side : Side) (limit : Option Price)
    (need : Qty) (actor : ParticipantId) : ∀ (qs : List LevelPtr) (total : UInt64),
    (∀ q ∈ qs, q ∈ T (opposite side)) → total.toNat < need.toNat →
    ∃ t, b.availableLevels side limit need actor qs total = some t ∧ (t < need.toUInt64 ↔
      total.toNat + Spec.availableLevels a.stp actor (reaches side limit) (qs.map (absLevel b.heap Q)) < need.toNat)
  | [], total, _, ht => by
    refine ⟨total, rfl, ?_⟩
    rw [UInt64.lt_iff_toNat_lt, UInt32.toNat_toUInt64]
    rfl
  | q :: qs, total, hqs, ht => by
    have hq := hqs q List.mem_cons_self
    have ih := fun total =>
      availableLevels_spec h hw side limit need actor qs total fun r hr => hqs r (List.mem_cons_of_mem _ hr)
    rw [List.map_cons, Spec.availableLevels, OrderBook.availableLevels]
    by_cases hreach : reaches side limit (b.heap.level q).price = true
    swap
    · rw [if_pos (by rw [Bool.eq_false_iff.mpr hreach]; rfl),
        if_neg (show ¬ reaches side limit (absLevel b.heap Q q).price = true from hreach)]
      refine ⟨total, rfl, ?_⟩
      rw [UInt64.lt_iff_toNat_lt, UInt32.toNat_toUInt64]
      rfl
    rw [if_neg (by rw [hreach]; exact Bool.false_ne_true),
      if_pos (show reaches side limit (absLevel b.heap Q q).price = true from hreach)]
    by_cases hon : b.stpOn actor = true
    · -- prevention is on: order by order
      obtain ⟨hp, hs⟩ := h.prevents_on hon
      have hspec := availableOrders_spec b.stopsAtOwn need hp hs ((Q q).map b.heap.order) total ht
      have hres : ((Q q).map b.heap.order).map Order.resting = (absLevel b.heap Q q).orders :=
        List.map_map ..
      rw [hres] at hspec
      simp only [hon, Bool.not_true, Bool.false_eq_true, if_false, h.queueFrom_eq hq,
        Option.bind_eq_bind, Option.bind_some]
      generalize availableOrders actor b.stopsAtOwn need ((Q q).map b.heap.order) total = r at hspec ⊢
      generalize availableQueue a.stp actor (absLevel b.heap Q q).orders = r' at hspec ⊢
      obtain ⟨t, more⟩ := r
      cases more with
      | true =>
        obtain ⟨h1, h2, h3⟩ := hspec.1 rfl
        obtain ⟨t', ht', hiff⟩ := ih t h3
        refine ⟨t', ht', ?_⟩
        rw [hiff, if_pos h1, h2, Nat.add_assoc]
      | false =>
        refine ⟨t, rfl, ?_⟩
        rcases hspec.2 rfl with ⟨h1, h2, h3⟩ | ⟨h1, h2⟩
        · rw [if_neg (by rw [h2]; exact Bool.false_ne_true)]
          exact iff_of_true h1 h3
        · refine iff_of_false h1 ?_
          split <;> omega
    · -- prevention is off: level by level
      have hlt := need.toNat_lt
      have hsum : (total + (b.heap.level q).totalQty).toNat =
          total.toNat + natTotal (absLevel b.heap Q q).orders := by
        rw [h.rep.total]
        refine add_totalQty ?_ (Nat.lt_trans ht hlt)
        simp only [restings, List.length_map]
        exact h.small hw q
      rw [if_pos (by rw [Bool.eq_false_iff.mpr hon]; rfl), availableQueue_off (h.prevents_off hon)]
      simp only [if_true]
      by_cases hless : total + (b.heap.level q).totalQty < need.toUInt64
      · rw [if_pos hless]
        rw [UInt64.lt_iff_toNat_lt, UInt32.toNat_toUInt64] at hless
        obtain ⟨t', ht', hiff⟩ := ih _ hless
        refine ⟨t', ht', ?_⟩
        rw [hiff, hsum, Nat.add_assoc]
      · rw [if_neg hless]
        refine ⟨_, rfl, iff_of_false hless ?_⟩
        rw [UInt64.lt_iff_toNat_lt, UInt32.toNat_toUInt64, hsum] at hless
        omega

theorem available_spec (h : SimBy accepts b a T Q) (hw : Within L a) (side : Side)
    (limit : Option Price) {need : Qty} (hneed : need ≠ 0) (actor : ParticipantId) :
    ∃ t, b.available side limit need actor = some t ∧
      (t < need.toUInt64 ↔ a.available side limit actor < need.toNat) := by
  have hpos : (0 : UInt64).toNat < need.toNat := by
    have : need.toNat ≠ 0 := fun e => hneed (UInt32.toNat_inj.mp e)
    show 0 < need.toNat
    omega
  obtain ⟨t, ht, hiff⟩ := h.availableLevels_spec hw side limit need actor (T (opposite side)) 0 (fun _ hq => hq) hpos
  refine ⟨t, ?_, ?_⟩
  · rw [OrderBook.available, h.levels_eq hw]
    exact ht
  · rw [hiff, Spec.Book.available, h.levels, absLevels]
    simp

end SimBy

namespace Sim

variable {accepts : Price → Bool} {b : OrderBook L M} {a : Spec.Book}

theorem walk_eq (h : Sim accepts b a) (hw : Within L a) (s : Side) : b.walk s = some (a.walk s) := by
  obtain ⟨T, Q, h⟩ := h
  exact h.walk_eq hw s

theorem stateHash_eq (h : Sim accepts b a) (hw : Within L a) : b.stateHash = some a.stateHash := by
  rw [OrderBook.stateHash, h.walk_eq hw, h.walk_eq hw]
  rfl

theorem available_spec (h : Sim accepts b a) (hw : Within L a) (side : Side) (limit : Option Price) {need : Qty}
    (hneed : need ≠ 0) (actor : ParticipantId) : ∃ t, b.available side limit need actor = some t ∧
      (t < need.toUInt64 ↔ a.available side limit actor < need.toNat) := by
  obtain ⟨T, Q, h⟩ := h
  exact h.available_spec hw side limit hneed actor

theorem collect_eq (h : Sim accepts b a) (hw : Within L a) (s : Side) (maxLevels : Nat) :
    b.collect s maxLevels = some (((a.levels s).take maxLevels).map PriceLevel.depth) := by
  obtain ⟨T, Q, h⟩ := h
  rw [collect]
  split
  · rename_i e
    rw [e, List.take_zero]
    rfl
  · rw [h.levels_eq hw, h.levels, absLevels, ← List.map_take, List.map_map]
    refine congrArg some (List.map_congr_left fun q hq => ?_)
    simp only [Function.comp, PriceLevel.depth, absLevel, h.rep.count, h.rep.total, restings,
      List.length_map]

theorem depth_eq (h : Sim accepts b a) (hw : Within L a) (maxLevels : Nat) :
    b.depth maxLevels = some (a.depth maxLevels) := by
  rw [OrderBook.depth, h.collect_eq hw, h.collect_eq hw]
  rfl

/-- The price and the aggregates of the best level. -/
theorem best_eq (h : Sim accepts b a) (s : Side) :
    (b.best s).map (fun l => DepthLevel.mk l.price l.totalQty l.orderCount) =
      (a.levels s).head?.map PriceLevel.depth := by
  obtain ⟨T, Q, h⟩ := h
  rw [OrderBook.best, LawfulLadder.best_eq h.rep.tracks, h.levels, absLevels, List.head?_map,
    Option.map_map, Option.map_map]
  refine congrArg (fun f => (T s).head?.map f) (funext fun q => ?_)
  simp only [Function.comp, PriceLevel.depth, absLevel, h.rep.count, h.rep.total, restings,
    List.length_map]

end Sim

end OrderBook

end Pricetime
