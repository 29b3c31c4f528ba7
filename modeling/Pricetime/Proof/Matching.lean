import Pricetime.Proof.BookSim

/-!
# Matching simulates abstract matching

The loops of `match` end, and do what the recursion over the abstract queues
does: `matchLevel_spec` for the inner loop, by induction on the queue of the
level, and `matchLoop_spec` for the outer one, by induction on the levels of
the side. In between the level being matched may be empty.
-/

namespace Pricetime

open Spec (Resting PriceLevel matchQueue matchLevels prevents)

/-! ## Abstract matching -/

/-- An aggressor that is not killed in a queue stops there only when filled. -/
theorem matchQueue_done (policy : SelfTradePolicy) (aggressor : OrderId) (actor : ParticipantId)
    (price : Price) : ∀ (os : List Resting) (qty : Qty) (c : Counters),
      (matchQueue policy aggressor actor price os qty c).killed = false →
        (matchQueue policy aggressor actor price os qty c).left = 0 ∨
        (matchQueue policy aggressor actor price os qty c).rest = []
  | [], _, _, _ => .inr rfl
  | o :: os, qty, c, h => by
    unfold matchQueue at h ⊢
    by_cases h0 : qty = 0
    · simp only [h0, if_true]
      exact .inl trivial
    · simp only [if_neg h0] at h ⊢
      by_cases hp : prevents policy actor o.participant = true
      · simp only [if_pos hp] at h ⊢
        cases policy with
        | none => exact matchQueue_done _ _ _ _ os _ _ h
        | cancelResting => exact matchQueue_done _ _ _ _ os _ _ h
        | cancelAggressor => cases h
        | cancelBoth => cases h
      · simp only [if_neg hp] at h ⊢
        by_cases hq : qty < o.qty
        · simp only [if_pos hq]
          exact .inl trivial
        · simp only [if_neg hq] at h ⊢
          exact matchQueue_done _ _ _ _ os _ _ h

theorem matchQueue_length (policy : SelfTradePolicy) (aggressor : OrderId) (actor : ParticipantId)
    (price : Price) : ∀ (os : List Resting) (qty : Qty) (c : Counters),
      (matchQueue policy aggressor actor price os qty c).rest.length ≤ os.length
  | [], _, _ => Nat.le_refl _
  | o :: os, qty, c => by
    have ih := matchQueue_length policy aggressor actor price os
    unfold matchQueue
    split
    · exact Nat.le_refl _
    · split
      · split
        · exact Nat.le_refl _
        · exact Nat.le_succ _
        · exact Nat.le_succ_of_le (ih _ _)
      · split
        · exact Nat.le_refl _
        · exact Nat.le_succ_of_le (ih _ _)

theorem matchLevels_zero (policy : SelfTradePolicy) (aggressor : OrderId) (actor : ParticipantId)
    (reach : Price → Bool) (ls : List PriceLevel) (c : Counters) :
    matchLevels policy aggressor actor reach ls 0 c = ⟨ls, 0, [], c⟩ := by
  cases ls with
  | nil => rfl
  | cons l ls => rw [matchLevels, if_pos rfl]

namespace OrderBook

variable {L M : Type} [Ladder L] [LawfulLadder L] [IdMap M] [LawfulIdMap M]

/-! ## One level -/

/-- What the loop over a queue leaves alone: the orders not in the queue, the
prices of the levels, the policy and the ladder. -/
structure Advanced (os : List OrderPtr) (b b' : OrderBook L M) : Prop where
  data : ∀ y, y ∉ os → (b'.heap.order y).data = (b.heap.order y).data
  price : ∀ r, (b'.heap.level r).price = (b.heap.level r).price
  stp : b'.stp = b.stp
  ladder : b'.ladder = b.ladder

omit [Ladder L] [LawfulLadder L] [IdMap M] [LawfulIdMap M] in
theorem Advanced.refl (os : List OrderPtr) (b : OrderBook L M) : Advanced os b b :=
  ⟨fun _ _ => rfl, fun _ => rfl, rfl, rfl⟩

omit [Ladder L] [LawfulLadder L] [IdMap M] [LawfulIdMap M] in
theorem Advanced.trans {os os' : List OrderPtr} {b b' b'' : OrderBook L M} (h : Advanced os b b')
    (h' : Advanced os' b' b'') (hsub : ∀ y ∈ os', y ∈ os) : Advanced os b b'' where
  data y hy := (h'.data y fun e => hy (hsub y e)).trans (h.data y hy)
  price r := (h'.price r).trans (h.price r)
  stp := h'.stp.trans h.stp
  ladder := h'.ladder.trans h.ladder

namespace Rep

variable {b : OrderBook L M} {T : Side → List LevelPtr} {Q : LevelPtr → List OrderPtr} {q : LevelPtr}
  {o : OrderPtr} {os : List OrderPtr}

/-- The head of a queue is killed. -/
theorem killResting (h : Rep b T Q) (hq : Q q = o :: os) :
    ∃ b', b.killResting q o = some b' ∧ Rep b' T (Function.update Q q os) ∧ Advanced (o :: os) b b' ∧
      b'.counters = b.counters.cancel (b.heap.order o).qty ∧
      ∀ y, (b'.heap.order y).data = (b.heap.order y).data := by
  obtain ⟨b', hb', hrep, hsame, hlad⟩ :=
    (h.setCounters (b.counters.cancel (b.heap.order o).qty)).remove (show Q q = [] ++ o :: os from hq)
  exact ⟨b', hb', hrep, ⟨fun y _ => hsame.data y, hsame.price, hsame.stp, hlad⟩, hsame.counters,
    hsame.data⟩

/-- The head of a queue is filled in part. -/
theorem fillPart (h : Rep b T Q) (hq : Q q = o :: os) {fill : Qty} (hlt : fill < (b.heap.order o).qty) :
    ∃ b', b.fillResting q o fill = some b' ∧ Rep b' T Q ∧ Advanced (o :: os) b b' ∧
      b'.counters = b.counters.trade fill ∧
      restings b'.heap (o :: os) =
        { (b.heap.order o).resting with qty := (b.heap.order o).qty - fill } :: restings b.heap os := by
  have hoq : o ∈ Q q := by rw [hq]; exact List.mem_cons_self
  have hdata := reduce_data b.heap q o fill
  have hle : fill ≤ (b.heap.order o).qty := UInt32.le_of_lt hlt
  have hself : ((Level.reduce b.heap q o fill).order o).qty = (b.heap.order o).qty - fill := by
    have := congrArg OrderData.qty (hdata o)
    rwa [if_pos rfl] at this
  have hne : ((Level.reduce b.heap q o fill).order o).qty ≠ 0 := by
    rw [hself]
    intro e
    have := congrArg UInt32.toNat e
    rw [UInt32.toNat_sub_of_le _ _ hle] at this
    have := UInt32.lt_iff_toNat_lt.mp hlt
    simp only [UInt32.toNat_zero] at *
    omega
  have hnd := h.nodup q
  rw [hq] at hnd
  refine ⟨{ b with counters := b.counters.trade fill, heap := Level.reduce b.heap q o fill }, ?_,
    (h.setCounters (b.counters.trade fill)).reduce hoq hle, ⟨fun y hy => ?_, fun r => ?_, rfl, rfl⟩, rfl, ?_⟩
  · exact if_neg hne
  · rw [hdata, if_neg fun e => hy (by rw [e]; exact List.mem_cons_self)]
  · simp only [Level.reduce, Heap.modifyLevel_level, Heap.modifyOrder_level]
    split
    · rename_i e; rw [e]
    · rfl
  · have ho := hdata o
    simp only [if_true, Order.data, OrderData.mk.injEq] at ho
    refine congrArg₂ List.cons ?_ (restings_congr fun y hy => ?_)
    · simp only [Order.resting, ho]
    · rw [hdata, if_neg]
      rintro rfl
      exact (List.nodup_cons.mp hnd).1 hy

/-- The head of a queue is filled in full. -/
theorem fillWhole (h : Rep b T Q) (hq : Q q = o :: os) :
    ∃ b', b.fillResting q o (b.heap.order o).qty = some b' ∧ Rep b' T (Function.update Q q os) ∧
      Advanced (o :: os) b b' ∧ b'.counters = b.counters.trade (b.heap.order o).qty ∧
      restings b'.heap os = restings b.heap os := by
  have hoq : o ∈ Q q := by rw [hq]; exact List.mem_cons_self
  have hdata := reduce_data b.heap q o (b.heap.order o).qty
  have hself : ((Level.reduce b.heap q o (b.heap.order o).qty).order o).qty = 0 := by
    have := congrArg OrderData.qty (hdata o)
    rw [if_pos rfl] at this
    exact this.trans (UInt32.sub_self _)
  have hnd := h.nodup q
  rw [hq] at hnd
  have hne : ∀ y ∈ os, y ≠ o := fun y hy e => (List.nodup_cons.mp hnd).1 (e ▸ hy)
  obtain ⟨b', hb', hrep, hsame, hlad⟩ := ((h.setCounters (b.counters.trade (b.heap.order o).qty)).reduce hoq
    (UInt32.le_refl _)).remove (show Q q = [] ++ o :: os from hq)
  refine ⟨b', ?_, hrep, ⟨fun y hy => ?_, fun r => ?_, hsame.stp, hlad⟩, hsame.counters, ?_⟩
  · exact (if_pos hself).trans hb'
  · refine (hsame.data y).trans ?_
    rw [hdata, if_neg fun e => hy (by rw [e]; exact List.mem_cons_self)]
  · refine (hsame.price r).trans ?_
    simp only [Level.reduce, Heap.modifyLevel_level, Heap.modifyOrder_level]
    split
    · rename_i e; rw [e]
    · rfl
  · refine restings_congr fun y hy => (hsame.data y).trans ?_
    rw [hdata, if_neg (hne y hy)]

end Rep

omit [Ladder L] [LawfulLadder L] [IdMap M] [LawfulIdMap M] in
theorem prevents_iff (b : OrderBook L M) (actor participant : ParticipantId) :
    (b.stpOn actor = true ∧ participant = actor) ↔ prevents b.stp actor participant = true := by
  simp [stpOn, prevents]

/-- The inner loop of `match`. -/
theorem matchLevel_spec (aggressor : OrderId) (actor : ParticipantId) {T : Side → List LevelPtr}
    {q : LevelPtr} : ∀ (os : List OrderPtr) (fuel : Nat) {b : OrderBook L M} {Q : LevelPtr → List OrderPtr}
      (qty : Qty) {r : Spec.QueueMatch}, Rep b T Q → Q q = os → os.length < fuel →
      matchQueue b.stp aggressor actor (b.heap.level q).price (restings b.heap os) qty b.counters = r →
      ∃ b' os', matchLevel aggressor actor q fuel b qty = some (b', r.left, r.killed, r.execs) ∧
        Rep b' T (Function.update Q q os') ∧ Advanced os b b' ∧ b'.counters = r.counters ∧
        restings b'.heap os' = r.rest
  | os, 0, _, _, _, _, _, _, hf, _ => absurd hf (Nat.not_lt_zero _)
  | [], fuel + 1, b, Q, qty, r, h, hq, _, hr => by
    have hsame : Function.update Q q [] = Q := by rw [← hq, Function.update_eq_self]
    have hhead : (b.heap.level q).head = none := by rw [h.head_eq, hq]; rfl
    subst hr
    refine ⟨b, [], ?_, by rw [hsame]; exact h, Advanced.refl _ b, rfl, rfl⟩
    simp only [matchLevel, hhead, ite_self]
    rfl
  | o :: os, fuel + 1, b, Q, qty, r, h, hq, hf, hr => by
    have hhead : (b.heap.level q).head = some o := by rw [h.head_eq, hq]; rfl
    have hkeep : Function.update Q q (o :: os) = Q := by rw [← hq, Function.update_eq_self]
    have hself : Function.update Q q os q = os := Function.update_self ..
    have hidem : ∀ os', Function.update (Function.update Q q os) q os' = Function.update Q q os' :=
      fun os' => Function.update_idem ..
    have hmem : ∀ y ∈ os, y ∈ o :: os := fun y hy => List.mem_cons_of_mem _ hy
    rw [List.length_cons] at hf
    rw [show restings b.heap (o :: os) = (b.heap.order o).resting :: restings b.heap os from rfl] at hr
    unfold matchQueue at hr
    simp only [matchLevel, hhead]
    by_cases h0 : qty = 0
    · rw [if_pos h0] at hr ⊢
      subst hr
      exact ⟨b, o :: os, rfl, by rw [hkeep]; exact h, Advanced.refl _ b, rfl, rfl⟩
    rw [if_neg h0] at hr ⊢
    have hiff := prevents_iff b actor (b.heap.order o).participant
    by_cases hp : prevents b.stp actor (b.heap.order o).resting.participant = true
    · -- self-trade prevention fires
      rw [if_pos hp] at hr
      rw [if_pos (hiff.mpr hp)]
      obtain ⟨b₂, hb₂, hrep₂, hadv₂, hcnt₂, hdata₂⟩ := (h.setCounters b.counters.prevent).killResting hq
      have hrest₂ : restings b₂.heap os = restings b.heap os := restings_congr fun y _ => hdata₂ y
      have hstp₂ : b₂.stp = b.stp := hadv₂.stp
      have hadv : Advanced (o :: os) b b₂ := ⟨hadv₂.data, hadv₂.price, hadv₂.stp, hadv₂.ladder⟩
      have hpolicy : b.stp = .none ∨ b.stp = .cancelResting ∨ b.stp = .cancelAggressor ∨
          b.stp = .cancelBoth := by
        cases b.stp <;> simp
      rcases hpolicy with hs | hs | hs | hs
      · rw [hs] at hp
        simp [prevents] at hp
      · -- the next resting order may still fill the aggressor
        have hka : b.stp ≠ .cancelAggressor := by rw [hs]; decide
        simp only [hs] at hr
        rw [← hs, ← hstp₂, ← hrest₂, ← hadv.price,
          show b.counters.prevent.cancel (b.heap.order o).resting.qty = b₂.counters from hcnt₂.symm] at hr
        obtain ⟨b', os', hb', hrep', hadv', hcnt', hrest'⟩ :=
          matchLevel_spec aggressor actor os fuel qty hrep₂ hself (by omega) hr
        refine ⟨b', os', ?_, by rw [hidem] at hrep'; exact hrep', hadv.trans hadv' hmem, hcnt', hrest'⟩
        rw [if_pos hka]
        refine Option.bind_eq_some_iff.mpr ⟨b₂, hb₂, ?_⟩
        simp only [hstp₂, hs, ne_eq, not_true_eq_false, if_false]
        exact hb'
      · have hka : ¬ b.stp ≠ .cancelAggressor := by rw [hs]; decide
        have hkr : b.stp ≠ .cancelResting := by rw [hs]; decide
        simp only [hs] at hr
        subst hr
        refine ⟨{ b with counters := b.counters.prevent.cancel qty }, o :: os, ?_, ?_, ?_, rfl, rfl⟩
        · rw [if_neg hka]
          exact if_pos hkr
        · rw [hkeep]
          exact h.setCounters _
        · exact ⟨fun _ _ => rfl, fun _ => rfl, rfl, rfl⟩
      · have hka : b.stp ≠ .cancelAggressor := by rw [hs]; decide
        have hkr : b₂.stp ≠ .cancelResting := by rw [hstp₂, hs]; decide
        simp only [hs] at hr
        subst hr
        refine ⟨{ b₂ with counters := b₂.counters.cancel qty }, os, ?_, hrep₂.setCounters _, ?_, ?_, hrest₂⟩
        · rw [if_pos hka]
          exact Option.bind_eq_some_iff.mpr ⟨b₂, hb₂, if_pos hkr⟩
        · exact ⟨hadv.data, hadv.price, hadv.stp, hadv.ladder⟩
        · exact congrArg (fun c => c.cancel qty) hcnt₂
    · rw [if_neg hp] at hr
      rw [if_neg fun e => hp (hiff.mp e)]
      by_cases hlt : qty < (b.heap.order o).qty
      · rw [if_pos (show qty < (b.heap.order o).resting.qty from hlt)] at hr
        subst hr
        obtain ⟨b₂, hb₂, hrep₂, hadv₂, hcnt₂, hrest₂⟩ := h.fillPart hq hlt
        refine ⟨b₂, o :: os, ?_, by rw [hkeep]; exact hrep₂, hadv₂, hcnt₂, hrest₂⟩
        rw [if_pos hlt]
        refine Option.bind_eq_some_iff.mpr ⟨b₂, hb₂, ?_⟩
        obtain ⟨fuel, rfl⟩ : ∃ k, fuel = k + 1 := ⟨fuel - 1, by omega⟩
        simp only [UInt32.sub_self, matchLevel, if_true, Option.bind_eq_bind, Option.bind_some]
        rfl
      · rw [if_neg (show ¬ qty < (b.heap.order o).resting.qty from hlt)] at hr
        obtain ⟨b₂, hb₂, hrep₂, hadv₂, hcnt₂, hrest₂⟩ := h.fillWhole hq
        have hr₂ := (rfl : matchQueue b₂.stp aggressor actor (b₂.heap.level q).price (restings b₂.heap os)
          (qty - (b.heap.order o).qty) b₂.counters = _)
        obtain ⟨b', os', hb', hrep', hadv', hcnt', hrest'⟩ :=
          matchLevel_spec aggressor actor os fuel (qty - (b.heap.order o).qty) hrep₂ hself (by omega) hr₂
        rw [hcnt₂, hadv₂.stp, hrest₂, hadv₂.price] at hb' hcnt' hrest'
        subst hr
        refine ⟨b', os', ?_, by rw [hidem] at hrep'; exact hrep', hadv₂.trans hadv' hmem, hcnt', hrest'⟩
        rw [if_neg hlt]
        exact Option.bind_eq_some_iff.mpr ⟨b₂, hb₂, Option.bind_eq_some_iff.mpr ⟨_, hb', rfl⟩⟩

/-! ## One side -/

theorem Within.mono {a a' : Spec.Book} (h : Within L a) (hl : ∀ s, (a'.levels s).length ≤ (a.levels s).length)
    (ho : ∀ s, ∀ l' ∈ a'.levels s, ∃ l ∈ a.levels s, l'.orders.length ≤ l.orders.length) : Within L a' where
  orders s l' hl' := by
    obtain ⟨l, hlm, hle⟩ := ho s l' hl'
    exact Nat.lt_of_le_of_lt hle (h.orders s l hlm)
  levels s := LawfulLadder.fits_mono (h.levels s) (hl s)

/-- A side without its best level is within range too. -/
theorem Within.tail {a : Spec.Book} (h : Within L a) (side : Side) (counters : Counters) :
    Within L (({ a with counters } : Spec.Book).setLevels side (a.levels side).tail) := by
  have hsub : ∀ s, (({ a with counters } : Spec.Book).setLevels side (a.levels side).tail).levels s <:+ a.levels s := by
    intro s
    show Function.update a.levels side _ s <:+ _
    by_cases hs : s = side
    · subst hs
      rw [Function.update_self]
      exact List.tail_suffix _
    · rw [Function.update_of_ne hs]
  exact h.mono (fun s => (hsub s).length_le) fun s l hl => ⟨l, (hsub s).subset hl, Nat.le_refl _⟩

omit [LawfulLadder L] [LawfulIdMap M] in
/-- A turn of the outer loop of `match`. -/
theorem matchLoop_turn {aggressor : OrderId} {actor : ParticipantId} {side : Side} {limit : Option Price} (fuel : Nat)
    {b b₁ b₂ : OrderBook L M} {q : LevelPtr} {qty left : Qty} {killed : Bool} {execs : List Execution} (h0 : qty ≠ 0)
    (hq : Ladder.best b.ladder (opposite side) = some q) (hreach : reaches side limit (b.heap.level q).price = true)
    (hb₁ : matchLevel aggressor actor q (b.openOrders + 1) b qty = some (b₁, left, killed, execs))
    (hb₂ : b₁.dropIfEmpty (opposite side) q = some b₂) : matchLoop aggressor actor side limit (fuel + 1) b qty =
      if killed then some (b₂, 0, execs) else
        (matchLoop aggressor actor side limit fuel b₂ left).bind fun t => some (t.1, t.2.1, execs ++ t.2.2) := by
  rw [matchLoop, if_neg h0, hq]
  dsimp only
  rw [if_pos hreach, hb₁]
  simp only [Option.bind_eq_bind, Option.bind_some, hb₂]

namespace SimBy

variable {accepts : Price → Bool} {b : OrderBook L M} {a : Spec.Book} {T : Side → List LevelPtr}
  {Q : LevelPtr → List OrderPtr}

theorem queue_length_le (h : SimBy accepts b a T Q) {s : Side} {q : LevelPtr} (hq : q ∈ T s) :
    (Q q).length ≤ b.openOrders := by
  rw [h.openOrders_eq, Spec.Book.openOrders]
  refine List.le_sum_of_mem (List.mem_map.mpr ⟨absLevel b.heap Q q, ?_, ?_⟩)
  · have hm : absLevel b.heap Q q ∈ a.levels s := by
      rw [h.levels]
      exact List.mem_map_of_mem hq
    cases s with
    | bid => exact List.mem_append_left _ hm
    | ask => exact List.mem_append_right _ hm
  · simp only [absLevel, restings, List.length_map]

theorem side_length_le (h : SimBy accepts b a T Q) (s : Side) : (T s).length ≤ b.openOrders := by
  have hT : (T s).length = (a.levels s).length := by rw [h.levels, absLevels, List.length_map]
  have hone : ∀ n ∈ (a.levels .bid ++ a.levels .ask).map (fun l => l.orders.length), 1 ≤ n := by
    intro n hn
    obtain ⟨l, hl, rfl⟩ := List.mem_map.mp hn
    rw [h.levels, List.mem_append] at hl
    rcases hl with hl | hl <;>
    · obtain ⟨q, hq, rfl⟩ := List.mem_map.mp hl
      have := List.length_pos_iff.mpr (h.full _ q hq)
      simp only [absLevel, restings, List.length_map]
      omega
  rw [h.openOrders_eq, Spec.Book.openOrders, hT]
  refine Nat.le_trans ?_ (List.length_le_sum_of_one_le _ hone)
  rw [List.length_map, List.length_append]
  cases s <;> omega

/-- The best level of a side is matched, and dropped if that empties it. -/
theorem matchBest (h : SimBy accepts b a T Q) (hw : Within L a) (aggressor : OrderId)
    (actor : ParticipantId) (qty : Qty) {s : Side} {q : LevelPtr} {qs : List LevelPtr}
    {r : Spec.QueueMatch} (hT : T s = q :: qs)
    (hr : matchQueue a.stp aggressor actor (b.heap.level q).price (restings b.heap (Q q)) qty
      a.counters = r) :
    ∃ b₁ b₂ T₂ Q₂, matchLevel aggressor actor q (b.openOrders + 1) b qty =
        some (b₁, r.left, r.killed, r.execs) ∧ b₁.dropIfEmpty s q = some b₂ ∧
      SimBy accepts b₂ ({ a with counters := r.counters }.setLevels s
        (Spec.keep (b.heap.level q).price r.rest ++ (a.levels s).tail)) T₂ Q₂ ∧
      (r.rest = [] → T₂ s = qs) := by
  have hq : q ∈ T s := by rw [hT]; exact List.mem_cons_self
  rw [h.stp, h.counters] at hr
  obtain ⟨b₁, os', hb₁, hrep, hadv, hcnt, hrest⟩ := matchLevel_spec aggressor actor (Q q)
    (b.openOrders + 1) qty h.rep rfl (Nat.lt_succ_of_le (h.queue_length_le hq)) hr
  have hlen : os'.length ≤ (Q q).length := by
    have := matchQueue_length b.stp aggressor actor (b.heap.level q).price (restings b.heap (Q q)) qty b.counters
    rw [hr, ← hrest] at this
    simpa only [restings, List.length_map] using this
  have hshort : ∀ x, (Function.update Q q os' x).length < 2 ^ 32 := fun x => by
    by_cases e : x = q
    · rw [e, Function.update_self]
      exact Nat.lt_of_le_of_lt hlen (h.small hw q)
    · rw [Function.update_of_ne e]
      exact h.small hw x
  obtain ⟨b₂, hb₂, hrep₂, hfull₂, hheap, hsame⟩ := hrep.drop hq (fun s' x hx e => by
    rw [Function.update_of_ne e]
    exact h.full s' x hx) hshort (h.fits hw s)
  have hlevels := h.modify hq b₁.heap (Function.update Q q os') (fun _ => r.rest) hadv.price
    (fun x hx => by
      rw [Function.update_of_ne hx]
      exact restings_congr fun y hy => hadv.data y fun e => hx (h.rep.queue_inj hy e))
    (by rw [Function.update_self]; exact hrest)
  have hside : Spec.modifyAt (b.heap.level q).price (fun _ => r.rest) (a.levels s) =
      Spec.keep (b.heap.level q).price r.rest ++ (a.levels s).tail := by
    rw [h.levels, absLevels, hT, List.map_cons, Spec.modifyAt,
      if_pos (show (absLevel b.heap Q q).price = (b.heap.level q).price from rfl)]
    rfl
  refine ⟨b₁, b₂, _, _, hb₁, hb₂, ⟨hrep₂, hfull₂, ?_, ?_, ?_, ?_⟩, fun e => ?_⟩
  · rw [hheap, ← hlevels, hside]
    rfl
  · exact h.stp.trans (hadv.stp.symm.trans hsame.stp.symm)
  · exact (hsame.counters.trans hcnt).symm
  · rw [hsame.validPrice, hadv.ladder]
    exact h.accepts
  · have hnil : os' = [] := by
      rw [e] at hrest
      exact List.map_eq_nil_iff.mp hrest
    rw [Function.update_self, if_pos hnil, Function.update_self, hT, List.erase_cons_head]

/-- The outer loop of `match`. -/
theorem matchLoop_spec (aggressor : OrderId) (actor : ParticipantId) (side : Side)
    (limit : Option Price) : ∀ (fuel : Nat) {b : OrderBook L M} {a : Spec.Book}
      {T : Side → List LevelPtr} {Q : LevelPtr → List OrderPtr} (qty : Qty) {r : Spec.SideMatch},
      SimBy accepts b a T Q → Within L a → (T (opposite side)).length < fuel →
      matchLevels a.stp aggressor actor (reaches side limit) (a.levels (opposite side)) qty a.counters = r →
      ∃ b', matchLoop aggressor actor side limit fuel b qty = some (b', r.left, r.execs) ∧
        Sim accepts b' ({ a with counters := r.counters }.setLevels (opposite side) r.levels)
  | 0, _, _, _, _, _, _, _, _, hf, _ => absurd hf (Nat.not_lt_zero _)
  | fuel + 1, b, a, T, Q, qty, r, h, hw, hf, hr => by
    -- the book as it is, when the loop stops at once
    have stop : r = ⟨a.levels (opposite side), qty, [], a.counters⟩ →
        Sim accepts b ({ a with counters := r.counters }.setLevels (opposite side) r.levels) := by
      rintro rfl
      refine ⟨T, Q, h.rep, h.full, ?_, h.stp, h.counters, h.accepts⟩
      rw [← h.levels]
      exact Function.update_eq_self ..
    have hlev : a.levels (opposite side) = (T (opposite side)).map (absLevel b.heap Q) := by
      rw [h.levels, absLevels]
    by_cases h0 : qty = 0
    · rw [h0, matchLevels_zero, ← h0] at hr
      refine ⟨b, ?_, stop hr.symm⟩
      rw [matchLoop, if_pos h0, ← hr]
    have hbest := LawfulLadder.best_eq h.rep.tracks (opposite side)
    cases hT : T (opposite side) with
    | nil =>
      rw [hlev, hT, List.map_nil, matchLevels] at hr
      rw [hT] at hbest
      refine ⟨b, ?_, stop ?_⟩
      · rw [matchLoop, if_neg h0, hbest, ← hr]
        rfl
      · rw [hlev, hT, List.map_nil]
        exact hr.symm
    | cons q qs =>
      rw [hT, List.head?_cons] at hbest
      have hcons : a.levels (opposite side) = absLevel b.heap Q q :: qs.map (absLevel b.heap Q) := by
        rw [hlev, hT, List.map_cons]
      rw [hcons, matchLevels, if_neg h0] at hr
      by_cases hreach : reaches side limit (b.heap.level q).price = true
      · rw [if_pos (show reaches side limit (absLevel b.heap Q q).price = true from hreach)] at hr
        obtain ⟨r₀, hr₀⟩ : ∃ r₀, matchQueue a.stp aggressor actor (b.heap.level q).price
          (restings b.heap (Q q)) qty a.counters = r₀ := ⟨_, rfl⟩
        have hdone := matchQueue_done a.stp aggressor actor (b.heap.level q).price
          (restings b.heap (Q q)) qty a.counters
        obtain ⟨b₁, b₂, T₂, Q₂, hb₁, hb₂, h₂, hempty⟩ := h.matchBest hw aggressor actor qty hT hr₀
        rw [hr₀] at hdone
        rw [show matchQueue a.stp aggressor actor (absLevel b.heap Q q).price
          (absLevel b.heap Q q).orders qty a.counters = r₀ from hr₀] at hr
        have htail : (a.levels (opposite side)).tail = qs.map (absLevel b.heap Q) := by
          rw [hcons, List.tail_cons]
        rw [htail] at h₂
        have hturn := matchLoop_turn fuel h0 hbest hreach hb₁ hb₂
        by_cases hk : r₀.killed = true
        · rw [if_pos hk] at hr hturn
          subst hr
          exact ⟨b₂, hturn, T₂, Q₂, h₂⟩
        rw [if_neg hk] at hr hturn
        rcases hdone (Bool.eq_false_iff.mpr hk) with h0' | hrest
        · -- nothing is left of the aggressor
          rw [h0', matchLevels_zero] at hr
          subst hr
          obtain ⟨fuel, rfl⟩ : ∃ k, fuel = k + 1 := ⟨fuel - 1, by
            rw [hT, List.length_cons] at hf
            omega⟩
          refine ⟨b₂, hturn.trans ?_, T₂, Q₂, h₂⟩
          rw [h0', matchLoop, if_pos rfl]
          rfl
        · -- the level is empty
          rw [hrest, Spec.keep, if_pos rfl] at hr h₂
          rw [List.nil_append] at h₂
          have hT₂ := hempty hrest
          have hlen : (T₂ (opposite side)).length < fuel := by
            rw [hT, List.length_cons] at hf
            rw [hT₂]
            omega
          have hls : (({ a with counters := r₀.counters } : Spec.Book).setLevels (opposite side)
              (qs.map (absLevel b.heap Q))).levels (opposite side) = qs.map (absLevel b.heap Q) :=
            Function.update_self ..
          obtain ⟨b', hb', hsim⟩ := matchLoop_spec aggressor actor side limit fuel r₀.left h₂
            (htail ▸ hw.tail (opposite side) r₀.counters) hlen rfl
          rw [hls] at hb' hsim
          subst hr
          refine ⟨b', hturn.trans (Option.bind_eq_some_iff.mpr ⟨_, hb', rfl⟩), ?_⟩
          rw [Spec.Book.setLevels] at hsim ⊢
          rw [show Function.update (({ a with counters := r₀.counters } : Spec.Book).setLevels _ _).levels
            _ _ = _ from Function.update_idem ..] at hsim
          exact hsim
      · rw [if_neg (show ¬ reaches side limit (absLevel b.heap Q q).price = true from hreach)] at hr
        refine ⟨b, ?_, stop ?_⟩
        · rw [matchLoop, if_neg h0, hbest, ← hr]
          exact if_neg hreach
        · rw [hcons]
          exact hr.symm

end SimBy

theorem Sim.matchOrder {accepts : Price → Bool} {b : OrderBook L M} {a : Spec.Book}
    (h : Sim accepts b a) (hw : Within L a) (aggressor : OrderId) (actor : ParticipantId) (side : Side)
    (limit : Option Price) (qty : Qty) :
    ∃ b', b.matchOrder aggressor actor side limit qty =
        some (b', (a.matchOrder aggressor actor side limit qty).2) ∧
      Sim accepts b' (a.matchOrder aggressor actor side limit qty).1 := by
  obtain ⟨T, Q, h⟩ := h
  exact h.matchLoop_spec aggressor actor side limit (b.openOrders + 1) qty hw
    (Nat.lt_succ_of_le (h.side_length_le _)) rfl

end OrderBook

end Pricetime
